import MprMq.Lib.Scan
import MprMq.Lib.SizeT
set_option autoImplicit false

/-! `base/string_piece`: the searches in a piece of a string, and `substr`. -/

namespace MprMq.Base
open Lib

/-- The characters that a `StringPiece` points to, or those of a `std::string`; no object
takes half of the addresses. -/
structure StringPiece where
  data : List UInt8
  fits : data.length < 2^63

namespace StringPiece

theorem ext {s t : StringPiece} (h : s.data = t.data) : s = t := by
  cases s; cases t; cases h; rfl

def npos : Nat := SizeT.modulus-1

def orNpos (found : Option Nat) : Nat := found.getD npos

def empty : StringPiece := ⟨[],by decide⟩

def size (s : StringPiece) : Nat := s.data.length

def front (s : StringPiece) : UInt8 := s.data.headD 0

def passes (self : StringPiece) (test : UInt8 → Bool) (i : Nat) : Bool :=
  (self.data[i]?).any test

/-- `std::search`: the offset of the first occurrence of `s`, or the length. -/
def search (l s : List UInt8) : Nat :=
  (lowest (fun i => s <+: l.drop i) (l.length+1)).getD l.length

/-- `std::find_end`: the offset of the last occurrence of `s`, or the length. -/
def findEnd (l s : List UInt8) : Nat :=
  if s = [] then l.length else (highest (fun i => s <+: l.drop i) l.length).getD l.length

def buildLookupTable (wanted : StringPiece) (table : UInt8 → Bool) : UInt8 → Bool :=
  wanted.data.foldl (fun table c => Function.update table c true) table

def lookup (s : StringPiece) : UInt8 → Bool := buildLookupTable s (fun _ => false)

def firstThat (self : StringPiece) (test : UInt8 → Bool) (pos : Nat) : Nat :=
  orNpos (scanUp (self.passes test) (self.size-pos) pos)

def lastThat (self : StringPiece) (test : UInt8 → Bool) (i : Nat) : Nat :=
  orNpos (scanDown (self.passes test) i)

def find (self s : StringPiece) (pos : Nat) : Nat :=
  if self.size < pos then npos
  else
    let xpos := pos+search (self.data.drop pos) s.data
    if SizeT.add xpos s.size ≤ self.size then xpos else npos

def findChar (self : StringPiece) (c : UInt8) (pos : Nat) : Nat :=
  if self.size ≤ pos then npos
  else
    let result := pos+(self.data.drop pos).idxOf c
    if result ≠ self.size then result else npos

def rfind (self s : StringPiece) (pos : Nat) : Nat :=
  if self.size < s.size then npos
  else if s.size = 0 then min self.size pos
  else
    let last := min (self.size-s.size) pos + s.size
    let result := findEnd (self.data.take last) s.data
    if result ≠ last then result else npos

def rfindChar (self : StringPiece) (c : UInt8) (pos : Nat) : Nat :=
  if self.size = 0 then npos else self.lastThat (fun d => d = c) (min pos (self.size-1))

def findFirstOf (self s : StringPiece) (pos : Nat) : Nat :=
  if self.size = 0 ∨ s.size = 0 then npos
  else if s.size = 1 then self.findChar s.front pos
  else self.firstThat s.lookup pos

def findFirstOfChar (self : StringPiece) (c : UInt8) (pos : Nat) : Nat := self.findChar c pos

def findFirstNotOfChar (self : StringPiece) (c : UInt8) (pos : Nat) : Nat :=
  if self.size = 0 then npos else self.firstThat (fun d => d ≠ c) pos

def findFirstNotOf (self s : StringPiece) (pos : Nat) : Nat :=
  if self.size = 0 then npos
  else if s.size = 0 then 0
  else if s.size = 1 then self.findFirstNotOfChar s.front pos
  else self.firstThat (fun c => !s.lookup c) pos

def findLastOf (self s : StringPiece) (pos : Nat) : Nat :=
  if self.size = 0 ∨ s.size = 0 then npos
  else if s.size = 1 then self.rfindChar s.front pos
  else self.lastThat s.lookup (min pos (self.size-1))

def findLastOfChar (self : StringPiece) (c : UInt8) (pos : Nat) : Nat := self.rfindChar c pos

def findLastNotOfChar (self : StringPiece) (c : UInt8) (pos : Nat) : Nat :=
  if self.size = 0 then npos else self.lastThat (fun d => d ≠ c) (min pos (self.size-1))

def findLastNotOf (self s : StringPiece) (pos : Nat) : Nat :=
  if self.size = 0 then npos
  else
    let i := min pos (self.size-1)
    if s.size = 0 then i
    else if s.size = 1 then self.findLastNotOfChar s.front pos
    else self.lastThat (fun c => !s.lookup c) i

/-- `substr` cuts both the position and the length to what there is. -/
def substr (self : StringPiece) (pos n : Nat) : StringPiece :=
  let pos := min pos self.size
  let n := min n (self.size-pos)
  ⟨(self.data.drop pos).take n,by
    have := self.fits
    simp only [List.length_take,List.length_drop]
    omega⟩

end StringPiece

namespace StdString
open StringPiece

def OccursAt (self s : List UInt8) (x : Nat) : Prop :=
  x+s.length ≤ self.length ∧ ∀ i < s.length, self[x+i]? = s[i]?

instance (self s : List UInt8) : DecidablePred (OccursAt self s) :=
  fun _ => inferInstanceAs (Decidable (_ ∧ _))

def OneOfAt (self s : List UInt8) (x : Nat) : Prop := ∃ c ∈ s, self[x]? = some c

instance (self s : List UInt8) : DecidablePred (OneOfAt self s) :=
  fun _ => inferInstanceAs (Decidable (∃ c ∈ s, _))

def find (self s : List UInt8) (pos : Nat) : Nat :=
  orNpos (lowest (fun x => pos ≤ x ∧ OccursAt self s x) (self.length+1))

def rfind (self s : List UInt8) (pos : Nat) : Nat :=
  orNpos (highest (fun x => x ≤ pos ∧ OccursAt self s x) (self.length+1))

def findFirstOf (self s : List UInt8) (pos : Nat) : Nat :=
  orNpos (lowest (fun x => pos ≤ x ∧ OneOfAt self s x) self.length)

def findLastOf (self s : List UInt8) (pos : Nat) : Nat :=
  orNpos (highest (fun x => x ≤ pos ∧ OneOfAt self s x) self.length)

def findFirstNotOf (self s : List UInt8) (pos : Nat) : Nat :=
  orNpos (lowest (fun x => pos ≤ x ∧ ¬OneOfAt self s x) self.length)

def findLastNotOf (self s : List UInt8) (pos : Nat) : Nat :=
  orNpos (highest (fun x => x ≤ pos ∧ ¬OneOfAt self s x) self.length)

end StdString
end MprMq.Base
