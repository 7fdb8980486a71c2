import Mathlib.Algebra.Group.Nat.Defs
import Mathlib.Algebra.Ring.Int.Defs
import MprMq.Lib.Population
import MprMq.Lib.Run
set_option autoImplicit false

/-! `scoped_ref_ptr` and the counts of `RefCounted` and `RefCountedThreadSafe`, for any number of
pointers and of objects. -/

namespace MprMq.Base
open Lib

/-- The value a 32-bit integer shows. -/
def toInt32 (n : Int) : Int := Int.bmod n (2^32)

theorem toInt32_of_range {n : Int} (hlow : -2^31 ≤ n) (hhigh : n < 2^31) : toInt32 n = n := by
  apply Int.bmod_eq_of_le_mul_two <;> omega

theorem toInt32_add_one (n : Int) : toInt32 (toInt32 n+1) = toInt32 (n+1) := by
  rw [toInt32,toInt32,toInt32,Int.bmod_add_bmod]

namespace RefCountedBase

def addRef (refCount : Int) : Int := toInt32 (refCount+1)

def release (refCount : Int) : Int × Bool :=
  if toInt32 (refCount-1) = 0 then (toInt32 (refCount-1),true)
  else (toInt32 (refCount-1),false)

end RefCountedBase

def atomicRefCountIncN (refCount increment : Int) : Int := toInt32 (refCount+increment)

def atomicRefCountDecN (refCount decrement : Int) : Int × Bool :=
  (toInt32 (refCount+-decrement),toInt32 (refCount+-decrement) ≠ 0)

def atomicRefCountInc (refCount : Int) : Int := atomicRefCountIncN refCount 1

def atomicRefCountDec (refCount : Int) : Int × Bool := atomicRefCountDecN refCount 1

namespace RefCountedThreadSafeBase

def addRef (refCount : Int) : Int := atomicRefCountInc refCount

def release (refCount : Int) : Int × Bool :=
  let (count,more) := atomicRefCountDec refCount
  if !more then (count,true) else (count,false)

end RefCountedThreadSafeBase

inductive RefKind where
  | refCounted
  | refCountedThreadSafe
  deriving DecidableEq

namespace RefKind

def addRef : RefKind → Int → Int
  | .refCounted, refCount => RefCountedBase.addRef refCount
  | .refCountedThreadSafe, refCount => RefCountedThreadSafeBase.addRef refCount

def release : RefKind → Int → Int × Bool
  | .refCounted, refCount => RefCountedBase.release refCount
  | .refCountedThreadSafe, refCount => RefCountedThreadSafeBase.release refCount

theorem addRef_eq (κ : RefKind) (refCount : Int) :
    κ.addRef refCount = toInt32 (refCount+1) := by
  cases κ <;> rfl

theorem release_eq (κ : RefKind) (refCount : Int) :
    κ.release refCount = (toInt32 (refCount-1),decide (toInt32 (refCount-1) = 0)) := by
  cases κ with
  | refCounted =>
    simp only [release,RefCountedBase.release]
    split <;> simp [*]
  | refCountedThreadSafe =>
    have hsub : refCount+-1 = refCount-1 := rfl
    simp only [release,RefCountedThreadSafeBase.release,atomicRefCountDec,atomicRefCountDecN,hsub]
    by_cases h : toInt32 (refCount-1) = 0 <;> simp [h]

end RefKind

/-- The objects, with their counts, and the pointers. `member` is the object that a pointer is a
member of, `agenda` the pointers whose destructors a delete has still to run. `deletes` and `late`
count, for the proofs, the deletes of an object and the calls on it after one. -/
structure RefState (ω π : Type) where
  created : ω → Bool
  refCount : ω → Int
  deletes : ω → Nat
  late : ω → Nat
  live : List π
  ptr : π → Option ω
  member : π → Option ω
  agenda : List π

/-- A new object, the constructors of `scoped_ref_ptr`, with the object that the pointer becomes a
member of, its assignments, `swap` and the destructor, and the destructor of a deleted object's
next member. -/
inductive RefAct (ω π : Type) where
  | create (o : ω)
  | ctorNull (p : π) (m : Option ω)
  | ctorRaw (p : π) (m x : Option ω)
  | ctorCopy (p : π) (m : Option ω) (r : π)
  | ctorConvertingCopy (p : π) (m : Option ω) (r : π)
  | ctorMove (p : π) (m : Option ω) (r : π)
  | ctorConvertingMove (p : π) (m : Option ω) (r : π)
  | assignRaw (p : π) (x : Option ω)
  | assignCopy (p r : π)
  | assignConvertingCopy (p r : π)
  | assignMove (p r : π)
  | assignConvertingMove (p r : π)
  | swap (p r : π)
  | destroy (p : π)
  | unwind

namespace RefState
variable {ω π : Type} {κ : ω → RefKind} {s : RefState ω π} {x : Option ω}

def init : RefState ω π :=
  ⟨fun _ => false,fun _ => 0,fun _ => 0,fun _ => 0,[],fun _ => none,fun _ => none,[]⟩

def alive (s : RefState ω π) (o : ω) : Bool := s.created o && s.deletes o = 0

def valid (s : RefState ω π) (x : Option ω) : Bool := x.all s.alive

@[simp] theorem valid_none : s.valid none = true := rfl

theorem valid_some {o : ω} : s.valid (some o) = true ↔ s.created o = true ∧ s.deletes o = 0 := by
  simp [valid,alive]

section pointers
variable [DecidableEq π]

def setPtr (s : RefState ω π) (p : π) (x : Option ω) : RefState ω π :=
  { s with ptr := Function.update s.ptr p x }

@[simp] theorem setPtr_ptr (p : π) : (s.setPtr p x).ptr = Function.update s.ptr p x := rfl

@[simp] theorem setPtr_valid (p : π) (y : Option ω) : (s.setPtr p x).valid y = s.valid y := rfl

def construct (s : RefState ω π) (p : π) (m x : Option ω) : RefState ω π :=
  { s with
    live := p :: s.live
    ptr := Function.update s.ptr p x
    member := Function.update s.member p m }

@[simp] theorem construct_ptr (p : π) (m : Option ω) :
    (s.construct p m x).ptr = Function.update s.ptr p x := rfl

@[simp] theorem construct_valid (p : π) (m y : Option ω) :
    (s.construct p m x).valid y = s.valid y := rfl

def remove (s : RefState ω π) (p : π) : RefState ω π :=
  { s with live := s.live.erase p, agenda := s.agenda.filter (· ≠ p) }

end pointers

section objects
variable [DecidableEq ω]

def holders (s : RefState ω π) (o : ω) : Nat := population s.ptr (· = some o) s.live

def touch (s : RefState ω π) (o : ω) : RefState ω π :=
  { s with late := Function.update s.late o (s.late o+if s.deletes o = 0 then 0 else 1) }

/-- The members of the object are destroyed in the steps that follow, before the members of an
object whose delete is still under way. -/
def delete (s : RefState ω π) (o : ω) : RefState ω π :=
  { s with
    deletes := Function.update s.deletes o (s.deletes o+1)
    agenda := s.live.filter (fun p => s.member p = some o) ++ s.agenda }

def create (s : RefState ω π) (o : ω) : RefState ω π :=
  { s with
    created := Function.update s.created o true
    refCount := Function.update s.refCount o 0 }

theorem create_valid {o : ω} (ho : s.created o = false) (hx : s.valid x = true) :
    (s.create o).valid x = true := by
  cases x with
  | none => rfl
  | some o' =>
    obtain ⟨hcreated,hdeletes⟩ := valid_some.mp hx
    have hne : o' ≠ o := fun e => by rw [e,ho] at hcreated; cases hcreated
    refine valid_some.mpr ⟨?_,hdeletes⟩
    simpa only [create,Function.update_of_ne hne] using hcreated

def setCount (s : RefState ω π) (o : ω) (refCount : Int) : RefState ω π :=
  { s with refCount := Function.update s.refCount o refCount }

def addRef (κ : ω → RefKind) (s : RefState ω π) : Option ω → RefState ω π
  | none => s
  | some o => (s.touch o).setCount o ((κ o).addRef (s.refCount o))

/-- `if (ptr_) Release(ptr_);`, with which every operation that calls it ends. -/
def release (κ : ω → RefKind) (s : RefState ω π) : Option ω → RefState ω π
  | none => s
  | some o =>
    let (count,last) := (κ o).release (s.refCount o)
    let s := (s.touch o).setCount o count
    if last then s.delete o else s

@[simp] theorem addRef_live : (s.addRef κ x).live = s.live := by cases x <;> rfl

@[simp] theorem addRef_ptr : (s.addRef κ x).ptr = s.ptr := by cases x <;> rfl

@[simp] theorem addRef_deletes : (s.addRef κ x).deletes = s.deletes := by cases x <;> rfl

@[simp] theorem addRef_valid (y : Option ω) : (s.addRef κ x).valid y = s.valid y := by
  cases x <;> rfl

@[simp] theorem addRef_agenda : (s.addRef κ x).agenda = s.agenda := by cases x <;> rfl

@[simp] theorem addRef_holders (o : ω) : (s.addRef κ x).holders o = s.holders o := by
  simp [holders]

theorem release_keeps {β : Type} (f : RefState ω π → β) (htouch : ∀ s o, f (touch s o) = f s)
    (hset : ∀ s o n, f (setCount s o n) = f s) (hdelete : ∀ s o, f (delete s o) = f s) :
    f (s.release κ x) = f s := by
  cases x with
  | none => rfl
  | some o =>
    simp only [release]
    split
    · rw [hdelete,hset,htouch]
    · rw [hset,htouch]

@[simp] theorem release_live : (s.release κ x).live = s.live :=
  release_keeps (·.live) (fun _ _ => rfl) (fun _ _ _ => rfl) (fun _ _ => rfl)

@[simp] theorem release_ptr : (s.release κ x).ptr = s.ptr :=
  release_keeps (·.ptr) (fun _ _ => rfl) (fun _ _ _ => rfl) (fun _ _ => rfl)

@[simp] theorem release_created : (s.release κ x).created = s.created :=
  release_keeps (·.created) (fun _ _ => rfl) (fun _ _ _ => rfl) (fun _ _ => rfl)

@[simp] theorem release_holders (o : ω) : (s.release κ x).holders o = s.holders o := by
  simp [holders]

end objects

variable [DecidableEq ω] [DecidableEq π]

def ctorRaw (κ : ω → RefKind) (s : RefState ω π) (p : π) (m x : Option ω) : RefState ω π :=
  (s.construct p m x).addRef κ x

def ctorCopy (κ : ω → RefKind) (s : RefState ω π) (p : π) (m : Option ω) (r : π) :
    RefState ω π :=
  (s.construct p m (s.ptr r)).addRef κ (s.ptr r)

def ctorMove (s : RefState ω π) (p : π) (m : Option ω) (r : π) : RefState ω π :=
  (s.construct p m (s.ptr r)).setPtr r none

def assignRaw (κ : ω → RefKind) (s : RefState ω π) (p : π) (x : Option ω) : RefState ω π :=
  let s := s.addRef κ x
  let oldPtr := s.ptr p
  let s := s.setPtr p x
  s.release κ oldPtr

def assignCopy (κ : ω → RefKind) (s : RefState ω π) (p r : π) : RefState ω π :=
  s.assignRaw κ p (s.ptr r)

def swap (s : RefState ω π) (p r : π) : RefState ω π :=
  let x := s.ptr p
  (s.setPtr p (s.ptr r)).setPtr r x

/-- The temporary takes the pointer of `r`, swaps it with `p`, and is destroyed. -/
def assignMove (κ : ω → RefKind) (s : RefState ω π) (p r : π) : RefState ω π :=
  let temp := s.ptr r
  let s := s.setPtr r none
  let swapped := s.ptr p
  let s := s.setPtr p temp
  s.release κ swapped

def destroy (κ : ω → RefKind) (s : RefState ω π) (p : π) : RefState ω π :=
  (s.remove p).release κ (s.ptr p)

def vacant (s : RefState ω π) (p : π) (m : Option ω) : Bool := p ∉ s.live && s.valid m

def step (κ : ω → RefKind) (s : RefState ω π) : RefAct ω π → Option (RefState ω π)
  | .create o => if s.created o then none else some (s.create o)
  | .ctorNull p m => if s.vacant p m then some (s.construct p m none) else none
  | .ctorRaw p m x => if s.vacant p m && s.valid x then some (s.ctorRaw κ p m x) else none
  | .ctorCopy p m r | .ctorConvertingCopy p m r =>
    if s.vacant p m && r ∈ s.live then some (s.ctorCopy κ p m r) else none
  | .ctorMove p m r | .ctorConvertingMove p m r =>
    if s.vacant p m && r ∈ s.live then some (s.ctorMove p m r) else none
  | .assignRaw p x => if p ∈ s.live && s.valid x then some (s.assignRaw κ p x) else none
  | .assignCopy p r | .assignConvertingCopy p r =>
    if p ∈ s.live && r ∈ s.live then some (s.assignCopy κ p r) else none
  | .assignMove p r | .assignConvertingMove p r =>
    if p ∈ s.live && r ∈ s.live then some (s.assignMove κ p r) else none
  | .swap p r => if p ∈ s.live && r ∈ s.live then some (s.swap p r) else none
  | .destroy p => if p ∈ s.live then some (s.destroy κ p) else none
  | .unwind =>
    match s.agenda with
    | [] => none
    | p :: _ => some (s.destroy κ p)

end RefState

section counts
variable {ω π : Type} {κ : ω → RefKind} {s : RefState ω π} {x : Option ω} {p : π}

/-- What holds between any two of the calls that an operation makes. -/
structure RefState.Sound (s : RefState ω π) : Prop where
  nodup : s.live.Nodup
  valid : ∀ p ∈ s.live, s.valid (s.ptr p) = true
  range : ∀ o, 0 ≤ s.refCount o ∧ s.refCount o < 2^31
  once : ∀ o, s.deletes o ≤ 1
  late : ∀ o, s.late o = 0
  agenda : ∀ p ∈ s.agenda, p ∈ s.live

namespace RefState.Sound
variable [DecidableEq π]

theorem setPtr (h : Sound s) (hx : s.valid x = true) : Sound (s.setPtr p x) := by
  refine ⟨h.nodup,fun q hq => ?_,h.range,h.once,h.late,h.agenda⟩
  rw [setPtr_valid]
  by_cases hqp : q = p
  · subst hqp
    rwa [setPtr_ptr,Function.update_self]
  · rw [setPtr_ptr,Function.update_of_ne hqp]
    exact h.valid q hq

theorem construct (h : Sound s) {m : Option ω} (hp : p ∉ s.live) (hx : s.valid x = true) :
    Sound (s.construct p m x) := by
  refine ⟨List.nodup_cons.mpr ⟨hp,h.nodup⟩,fun q hq => ?_,h.range,h.once,h.late,
    fun q hq => List.mem_cons_of_mem p (h.agenda q hq)⟩
  rw [construct_valid]
  by_cases hqp : q = p
  · subst hqp
    rwa [construct_ptr,Function.update_self]
  · rw [construct_ptr,Function.update_of_ne hqp]
    exact h.valid q ((List.mem_cons.mp hq).resolve_left hqp)

theorem remove (h : Sound s) : Sound (s.remove p) := by
  refine ⟨h.nodup.erase p,fun q hq => h.valid q (List.mem_of_mem_erase hq),h.range,h.once,h.late,
    fun q hq => ?_⟩
  obtain ⟨hq,hqp⟩ := List.mem_filter.mp hq
  exact (List.mem_erase_of_ne (by simpa using hqp)).mpr (h.agenda q hq)

end RefState.Sound

variable [DecidableEq ω]

/-- The object whose count a step raises. -/
def RefAct.adds (s : RefState ω π) : RefAct ω π → Option ω
  | .ctorRaw _ _ x | .assignRaw _ x => x
  | .ctorCopy _ _ r | .ctorConvertingCopy _ _ r | .assignCopy _ r | .assignConvertingCopy _ r =>
    s.ptr r
  | _ => none

/-- A step that calls AddRef finds room for one more holder in the 32-bit count. -/
def RefAct.hasRoom (s : RefState ω π) (a : RefAct ω π) : Bool :=
  (a.adds s).all fun o => s.holders o < 2^31-1

def credit (x : Option ω) (o : ω) : Nat := (decide (x = some o)).toNat

@[simp] theorem credit_none (o : ω) : credit none o = 0 := by simp [credit]

@[simp] theorem credit_self (o : ω) : credit (some o) o = 1 := by simp [credit]

theorem credit_of_ne {o o' : ω} (h : o ≠ o') : credit (some o) o' = 0 := by simp [credit,h]

theorem credit_pos {x : Option ω} {o : ω} : 0 < credit x o ↔ x = some o := by
  simp [credit,Nat.pos_iff_ne_zero]

namespace RefState

theorem addRef_refCount (hroom : ∀ o, x = some o → 0 ≤ s.refCount o ∧ s.refCount o < 2^31-1)
    (o : ω) : (s.addRef κ x).refCount o = s.refCount o+credit x o := by
  cases x with
  | none => simp [addRef]
  | some o' =>
    obtain ⟨hlow,hhigh⟩ := hroom o' rfl
    have hcount : toInt32 (s.refCount o'+1) = s.refCount o'+1 :=
      toInt32_of_range (by omega) (by omega)
    by_cases ho : o' = o
    · subst ho
      simp [addRef,setCount,RefKind.addRef_eq,hcount]
    · simp [addRef,setCount,touch,Function.update_of_ne (Ne.symm ho),credit_of_ne ho]

theorem release_refCount (hheld : ∀ o, x = some o → 0 < s.refCount o ∧ s.refCount o < 2^31)
    (o : ω) : (s.release κ x).refCount o = s.refCount o-credit x o := by
  cases x with
  | none => simp [release]
  | some o' =>
    obtain ⟨hlow,hhigh⟩ := hheld o' rfl
    have hcount : toInt32 (s.refCount o'-1) = s.refCount o'-1 :=
      toInt32_of_range (by omega) (by omega)
    have hset : (s.release κ (some o')).refCount =
        Function.update s.refCount o' (s.refCount o'-1) := by
      simp only [release,RefKind.release_eq,hcount]
      split <;> rfl
    rw [hset]
    by_cases ho : o' = o
    · subst ho
      simp
    · simp [Function.update_of_ne (Ne.symm ho),credit_of_ne ho]

/-- A release deletes the object when it takes the count to zero. -/
theorem release_deletes (o : ω) : (s.release κ x).deletes o =
    s.deletes o+if x = some o ∧ (s.release κ x).refCount o = 0 then 1 else 0 := by
  cases x with
  | none => simp [release]
  | some o' =>
    simp only [release,RefKind.release_eq,decide_eq_true_eq]
    by_cases ho : o' = o
    · subst ho
      split <;> simp [*,delete,setCount,touch]
    · split <;> simp [delete,setCount,touch,Function.update_of_ne (Ne.symm ho),ho]

theorem addRef_late (hx : s.valid x = true) : (s.addRef κ x).late = s.late := by
  cases x with
  | none => rfl
  | some o => simp [addRef,setCount,touch,(valid_some.mp hx).2]

theorem release_late (hx : s.valid x = true) : (s.release κ x).late = s.late := by
  cases x with
  | none => rfl
  | some o =>
    have htouch : (s.touch o).late = s.late := by simp [touch,(valid_some.mp hx).2]
    simp only [release]
    split <;> exact htouch

theorem release_agenda {p : π} (hp : p ∈ (s.release κ x).agenda) : p ∈ s.live ∨ p ∈ s.agenda := by
  cases x with
  | none => exact .inr hp
  | some o =>
    simp only [release] at hp
    split at hp
    · rcases List.mem_append.mp hp with hp | hp
      · exact .inl (List.mem_filter.mp hp).1
      · exact .inr hp
    · exact .inr hp

theorem holders_pos (hp : p ∈ s.live) {o : ω} (ho : s.ptr p = some o) : 0 < s.holders o :=
  population_pos.mpr ⟨p,hp,by simp [ho]⟩

namespace Sound

theorem addRef (h : Sound s) (hx : s.valid x = true)
    (hroom : ∀ o, x = some o → s.refCount o < 2^31-1) : Sound (s.addRef κ x) := by
  have hcount : ∀ o, (s.addRef κ x).refCount o = s.refCount o+credit x o :=
    addRef_refCount fun o ho => ⟨(h.range o).1,hroom o ho⟩
  refine ⟨by simpa using h.nodup,by simpa using h.valid,fun o => ?_,by simpa using h.once,?_,
    by simpa using h.agenda⟩
  · have hrange := h.range o
    rw [hcount]
    by_cases hxo : x = some o
    · have hlt := hroom o hxo
      subst hxo
      rw [credit_self]
      omega
    · simpa [credit,hxo] using hrange
  · rw [addRef_late hx]
    exact h.late

theorem release (h : Sound s) (hx : s.valid x = true)
    (hcount : ∀ o, s.refCount o = s.holders o+credit x o) : Sound (s.release κ x) := by
  have hheld : ∀ o, x = some o → 0 < s.refCount o ∧ s.refCount o < 2^31 := by
    intro o ho
    have := hcount o
    have := credit_pos.mpr ho
    exact ⟨by omega,(h.range o).2⟩
  have hcount' : ∀ o, (s.release κ x).refCount o = s.holders o := by
    intro o
    rw [release_refCount hheld,hcount]
    omega
  refine ⟨by simpa using h.nodup,fun p hp => ?_,fun o => ?_,fun o => ?_,?_,fun p hp => ?_⟩
  · rw [release_live] at hp
    rw [release_ptr]
    cases ho : s.ptr p with
    | none => rfl
    | some o =>
      have hvalid := h.valid p hp
      rw [ho,valid_some] at hvalid
      have hpos := holders_pos hp ho
      rw [valid_some,release_created,release_deletes,hcount',if_neg (by omega)]
      exact hvalid
  · have hrange := h.range o
    have := hcount o
    rw [hcount']
    omega
  · rw [release_deletes]
    split
    · rename_i hlast
      rw [hlast.1,valid_some] at hx
      omega
    · exact h.once o
  · rw [release_late hx]
    exact h.late
  · rw [release_live]
    exact (release_agenda hp).elim id (h.agenda p)

end Sound

structure Inv (s : RefState ω π) : Prop where
  sound : Sound s
  count : ∀ o, s.refCount o = s.holders o

/-- What an operation does that calls AddRef on `add` and then Release on `drop`. -/
structure Effect (s s' : RefState ω π) (add drop : Option ω) : Prop where
  inv : Inv s'
  holders : ∀ o, s'.holders o+credit drop o = s.holders o+credit add o
  deletes : ∀ o, s'.deletes o = s.deletes o+if drop = some o ∧ s'.holders o = 0 then 1 else 0
  held : ∀ o, drop = some o → 0 < s.holders o

theorem Inv.room (h : Inv s) (hroom : ∀ o, x = some o → s.holders o < 2^31-1) :
    ∀ o, x = some o → s.refCount o < 2^31-1 := by
  intro o ho
  have := hroom o ho
  rw [h.count]
  omega

theorem Inv.release (h : Inv s) {u : RefState ω π} {add drop : Option ω} (hu : Sound u)
    (hdeletes : u.deletes = s.deletes) (hcount : ∀ o, u.refCount o = s.refCount o+credit add o)
    (hholders : ∀ o, u.holders o+credit drop o = s.holders o+credit add o)
    (hdrop : u.valid drop = true) (hheld : ∀ o, drop = some o → 0 < s.holders o) :
    Effect s (u.release κ drop) add drop := by
  have howed : ∀ o, u.refCount o = u.holders o+credit drop o := by
    intro o
    have := hholders o
    rw [hcount,h.count]
    omega
  have hrelease : ∀ o, (u.release κ drop).refCount o = (u.release κ drop).holders o := by
    intro o
    rw [release_refCount fun o ho => ?_,howed,release_holders]
    · omega
    · have := howed o
      have := credit_pos.mpr ho
      exact ⟨by omega,(hu.range o).2⟩
  refine ⟨⟨hu.release hdrop howed,hrelease⟩,fun o => ?_,fun o => ?_,hheld⟩
  · rw [release_holders]
    exact hholders o
  · rw [release_deletes,hdeletes,hrelease]
    norm_cast

theorem Inv.keep (h : Inv s) {u : RefState ω π} {add : Option ω} (hu : Sound u)
    (hdeletes : u.deletes = s.deletes) (hcount : ∀ o, u.refCount o = s.refCount o+credit add o)
    (hholders : ∀ o, u.holders o = s.holders o+credit add o) : Effect s u add none := by
  have hrelease : Effect s (u.release (fun _ => .refCounted) none) add none :=
    h.release hu hdeletes hcount (by simpa using hholders) rfl (by simp)
  exact hrelease

/-- A delete comes with the step that takes the holders from one to none, and with no other. -/
theorem Effect.deletes_once {s' : RefState ω π} {add drop : Option ω} (h : Effect s s' add drop)
    (o : ω) :
    s'.deletes o = s.deletes o+if s.holders o = 1 ∧ s'.holders o = 0 then 1 else 0 := by
  have hholders := h.holders o
  have hiff : drop = some o ∧ s'.holders o = 0 ↔ s.holders o = 1 ∧ s'.holders o = 0 := by
    constructor
    · rintro ⟨hdrop,hnone⟩
      have hheld := h.held o hdrop
      have := credit_self o
      rw [hdrop] at hholders
      omega
    · rintro ⟨hone,hnone⟩
      exact ⟨credit_pos.mp (by omega),hnone⟩
  rw [h.deletes,if_congr hiff rfl rfl]

theorem create_effect (h : Inv s) {o : ω} (ho : s.created o = false) :
    Effect s (s.create o) none none := by
  have hzero : s.refCount o = 0 := by
    have hholders : s.holders o = 0 := by
      by_contra hpos
      obtain ⟨p,hp,hptr⟩ := population_pos.mp (Nat.pos_of_ne_zero hpos)
      have hvalid := h.sound.valid p hp
      rw [decide_eq_true_eq.mp hptr,valid_some,ho] at hvalid
      cases hvalid.1
    rw [h.count,hholders]
    rfl
  have hcount : (s.create o).refCount = s.refCount := by
    rw [create,← hzero]
    exact Function.update_eq_self o s.refCount
  refine h.keep ⟨h.sound.nodup,fun p hp => create_valid ho (h.sound.valid p hp),fun o' => ?_,
    h.sound.once,h.sound.late,h.sound.agenda⟩ rfl (fun o' => ?_) (fun o' => rfl)
  · rw [hcount]
    exact h.sound.range o'
  · rw [hcount]
    exact (Int.add_zero _).symm

variable [DecidableEq π]

theorem holders_setPtr (hnodup : s.live.Nodup) (hp : p ∈ s.live) (o : ω) :
    (s.setPtr p x).holders o+credit (s.ptr p) o = s.holders o+credit x o :=
  population_update s.ptr (· = some o) x hnodup hp

theorem holders_construct {m : Option ω} (hp : p ∉ s.live) (o : ω) :
    (s.construct p m x).holders o = s.holders o+credit x o := by
  have hrest : population (Function.update s.ptr p x) (· = some o) s.live = s.holders o :=
    population_update_of_notMem x hp
  simp only [holders,construct,population_cons,Function.update_self,credit] at hrest ⊢
  rw [hrest]

theorem holders_remove (hp : p ∈ s.live) (o : ω) :
    (s.remove p).holders o+credit (s.ptr p) o = s.holders o :=
  population_erase s.ptr (· = some o) hp

theorem ctorNull_effect (h : Inv s) {m : Option ω} (hp : p ∉ s.live) :
    Effect s (s.construct p m none) none none :=
  h.keep (h.sound.construct hp rfl) rfl (fun _ => (Int.add_zero _).symm) (holders_construct hp)

theorem ctorRaw_effect (h : Inv s) {m : Option ω} (hp : p ∉ s.live) (hx : s.valid x = true)
    (hroom : ∀ o, x = some o → s.holders o < 2^31-1) : Effect s (s.ctorRaw κ p m x) x none := by
  have hsound : Sound (s.ctorRaw κ p m x) := (h.sound.construct hp hx).addRef hx (h.room hroom)
  refine h.keep hsound (by simp [ctorRaw,construct]) ?_ ?_
  · exact addRef_refCount fun o ho => ⟨(h.sound.range o).1,h.room hroom o ho⟩
  · intro o
    rw [ctorRaw,addRef_holders]
    exact holders_construct hp o

theorem ctorMove_effect (h : Inv s) {m : Option ω} {r : π} (hp : p ∉ s.live) (hr : r ∈ s.live) :
    Effect s (s.ctorMove p m r) none none := by
  have hrp : r ≠ p := fun e => hp (e ▸ hr)
  have hsound := h.sound.construct (m := m) hp (h.sound.valid r hr)
  refine h.keep (hsound.setPtr rfl) rfl (fun _ => (Int.add_zero _).symm) (fun o => ?_)
  have hset := holders_setPtr (x := none) hsound.nodup (List.mem_cons_of_mem p hr) o
  have hconstruct := holders_construct (x := s.ptr r) (m := m) hp o
  rw [construct_ptr,Function.update_of_ne hrp] at hset
  simp only [ctorMove,credit_none]
  rw [credit_none] at hset
  omega

theorem assignRaw_effect (h : Inv s) (hp : p ∈ s.live) (hx : s.valid x = true)
    (hroom : ∀ o, x = some o → s.holders o < 2^31-1) :
    Effect s (s.assignRaw κ p x) x (s.ptr p) := by
  have hsound : Sound (s.addRef κ x) := h.sound.addRef hx (h.room hroom)
  have heffect : Effect s (((s.addRef κ x).setPtr p x).release κ (s.ptr p)) x (s.ptr p) := by
    refine h.release (hsound.setPtr (by simpa using hx)) ?_ ?_ ?_ ?_ ?_
    · exact addRef_deletes
    · exact addRef_refCount fun o ho => ⟨(h.sound.range o).1,h.room hroom o ho⟩
    · intro o
      have hset := holders_setPtr (x := x) hsound.nodup (by simpa using hp) o
      rwa [addRef_ptr,addRef_holders] at hset
    · simpa using h.sound.valid p hp
    · exact fun o ho => holders_pos hp ho
  simpa [assignRaw] using heffect

theorem assignMove_effect (h : Inv s) {r : π} (hp : p ∈ s.live) (hr : r ∈ s.live) :
    Effect s (s.assignMove κ p r) none ((s.setPtr r none).ptr p) := by
  have hnull := h.sound.setPtr (x := none) (p := r) rfl
  refine h.release (hnull.setPtr (h.sound.valid r hr)) rfl (fun _ => (Int.add_zero _).symm)
    (fun o => ?_) ?_ (fun o ho => ?_)
  · have hset := holders_setPtr (x := s.ptr r) hnull.nodup hp o
    have hset' := holders_setPtr (x := none) h.sound.nodup hr o
    simp only [credit_none] at hset' ⊢
    omega
  · exact hnull.valid p hp
  · rw [setPtr_ptr] at ho
    by_cases hpr : p = r
    · subst hpr
      simp at ho
    · rw [Function.update_of_ne hpr] at ho
      exact holders_pos hp ho

theorem swap_effect (h : Inv s) {r : π} (hp : p ∈ s.live) (hr : r ∈ s.live) :
    Effect s (s.swap p r) none none := by
  have hfirst := h.sound.setPtr (p := p) (h.sound.valid r hr)
  refine h.keep (hfirst.setPtr (h.sound.valid p hp)) rfl (fun _ => (Int.add_zero _).symm)
    (fun o => ?_)
  have hset := holders_setPtr (x := s.ptr r) h.sound.nodup hp o
  have hset' := holders_setPtr (x := s.ptr p) hfirst.nodup hr o
  have hread : (s.setPtr p (s.ptr r)).ptr r = s.ptr r := by
    rw [setPtr_ptr,Function.update_apply]
    split <;> rfl
  rw [hread] at hset'
  simp only [swap,credit_none]
  omega

theorem destroy_effect (h : Inv s) (hp : p ∈ s.live) :
    Effect s (s.destroy κ p) none (s.ptr p) := by
  refine h.release h.sound.remove rfl (fun _ => (Int.add_zero _).symm) (holders_remove hp) ?_ ?_
  · exact h.sound.valid p hp
  · exact fun o ho => holders_pos hp ho

theorem Inv.step_effect (h : Inv s) {s' : RefState ω π} {a : RefAct ω π}
    (hroom : a.hasRoom s = true) (hstep : s.step κ a = some s') :
    ∃ drop, Effect s s' (a.adds s) drop := by
  have hroom : ∀ o, a.adds s = some o → s.holders o < 2^31-1 := by
    intro o ho
    rw [RefAct.hasRoom,ho] at hroom
    exact decide_eq_true_eq.mp hroom
  simp only [step] at hstep
  cases a with
  | create o =>
    obtain ⟨ho,rfl⟩ := by simpa using hstep
    exact ⟨none,create_effect h ho⟩
  | ctorNull p m =>
    obtain ⟨⟨hp,-⟩,rfl⟩ := by simpa [vacant] using hstep
    exact ⟨none,ctorNull_effect h hp⟩
  | ctorRaw p m x =>
    obtain ⟨⟨⟨hp,-⟩,hx⟩,rfl⟩ := by simpa [vacant] using hstep
    exact ⟨none,ctorRaw_effect h hp hx hroom⟩
  | ctorCopy p m r =>
    obtain ⟨⟨⟨hp,-⟩,hr⟩,rfl⟩ := by simpa [vacant] using hstep
    exact ⟨none,ctorRaw_effect h hp (h.sound.valid r hr) hroom⟩
  | ctorConvertingCopy p m r =>
    obtain ⟨⟨⟨hp,-⟩,hr⟩,rfl⟩ := by simpa [vacant] using hstep
    exact ⟨none,ctorRaw_effect h hp (h.sound.valid r hr) hroom⟩
  | ctorMove p m r =>
    obtain ⟨⟨⟨hp,-⟩,hr⟩,rfl⟩ := by simpa [vacant] using hstep
    exact ⟨none,ctorMove_effect h hp hr⟩
  | ctorConvertingMove p m r =>
    obtain ⟨⟨⟨hp,-⟩,hr⟩,rfl⟩ := by simpa [vacant] using hstep
    exact ⟨none,ctorMove_effect h hp hr⟩
  | assignRaw p x =>
    obtain ⟨⟨hp,hx⟩,rfl⟩ := by simpa using hstep
    exact ⟨s.ptr p,assignRaw_effect h hp hx hroom⟩
  | assignCopy p r =>
    obtain ⟨⟨hp,hr⟩,rfl⟩ := by simpa using hstep
    exact ⟨s.ptr p,assignRaw_effect h hp (h.sound.valid r hr) hroom⟩
  | assignConvertingCopy p r =>
    obtain ⟨⟨hp,hr⟩,rfl⟩ := by simpa using hstep
    exact ⟨s.ptr p,assignRaw_effect h hp (h.sound.valid r hr) hroom⟩
  | assignMove p r =>
    obtain ⟨⟨hp,hr⟩,rfl⟩ := by simpa using hstep
    exact ⟨_,assignMove_effect h hp hr⟩
  | assignConvertingMove p r =>
    obtain ⟨⟨hp,hr⟩,rfl⟩ := by simpa using hstep
    exact ⟨_,assignMove_effect h hp hr⟩
  | swap p r =>
    obtain ⟨⟨hp,hr⟩,rfl⟩ := by simpa using hstep
    exact ⟨none,swap_effect h hp hr⟩
  | destroy p =>
    obtain ⟨hp,rfl⟩ := by simpa using hstep
    exact ⟨s.ptr p,destroy_effect h hp⟩
  | unwind =>
    cases hagenda : s.agenda with
    | nil => simp [hagenda] at hstep
    | cons p agenda =>
      obtain rfl := by simpa [hagenda] using hstep
      have hp := h.sound.agenda p (by rw [hagenda]; exact List.mem_cons_self)
      exact ⟨s.ptr p,destroy_effect h hp⟩

end RefState

def refSystem (ω π : Type) [DecidableEq ω] [DecidableEq π] (κ : ω → RefKind) :
    System (RefState ω π) (RefAct ω π) :=
  ⟨RefState.init,RefState.step κ⟩

theorem RefState.init_inv : (RefState.init : RefState ω π).Inv := by
  refine ⟨⟨List.nodup_nil,fun p hp => ?_,fun o => ?_,fun o => Nat.zero_le 1,fun o => rfl,
    fun p hp => ?_⟩,fun o => rfl⟩
  · cases hp
  · exact ⟨Int.le_refl 0,show (0 : Int) < 2^31 by decide⟩
  · cases hp

variable [DecidableEq π]

/-- As long as there is room in the counts, each count is the number of live pointers that hold
the object, which is deleted by the step that takes that number from one to zero, once, and not
called afterwards. -/
theorem counts_are_holders (run : List (RefAct ω π))
    (hroom : (refSystem ω π κ).Along (fun s a _ => a.hasRoom s = true) run) :
    (refSystem ω π κ).Always
      (fun s => ∀ o, s.refCount o = s.holders o ∧ s.deletes o ≤ 1 ∧ s.late o = 0) run ∧
    (refSystem ω π κ).Along (fun s _ s' => ∀ o,
      s'.deletes o = s.deletes o+if s.holders o = 1 ∧ s'.holders o = 0 then 1 else 0) run := by
  have hinv : ∀ s : RefState ω π, s.Inv →
      ∀ o, s.refCount o = s.holders o ∧ s.deletes o ≤ 1 ∧ s.late o = 0 :=
    fun s hs o => ⟨hs.count o,hs.sound.once o,hs.sound.late o⟩
  refine ⟨⟨hinv _ RefState.init_inv,System.AlongFrom.guarded ?_ RefState.init_inv hroom⟩,
    System.AlongFrom.guarded ?_ RefState.init_inv hroom⟩
  · intro s a s' hs hstep hroom
    obtain ⟨drop,heffect⟩ := hs.step_effect hroom hstep
    exact ⟨heffect.inv,hinv s' heffect.inv⟩
  · intro s a s' hs hstep hroom
    obtain ⟨drop,heffect⟩ := hs.step_effect hroom hstep
    exact ⟨heffect.inv,heffect.deletes_once⟩

end counts

/-- An object with a pointer to itself, which is assigned to itself and moved to itself and then
replaced by null, and one that a copy and a move share. -/
def selfOwner : List (RefAct Bool Nat) :=
  [.create true,.ctorRaw 0 (some true) (some true),.create false,.ctorRaw 1 none (some false),
    .ctorCopy 2 none 1,.ctorMove 3 none 1,.assignCopy 0 0,.assignMove 0 0,.assignMove 2 3,
    .swap 0 2,.swap 2 0,.destroy 3,.assignRaw 0 none,.unwind,.destroy 2,.destroy 1]

theorem self_owner_deleted_once :
    (refSystem Bool Nat fun _ => .refCounted).Always
      (fun s => ∀ o, s.refCount o = s.holders o ∧ s.deletes o ≤ 1 ∧ s.late o = 0) selfOwner ∧
    (refSystem Bool Nat fun _ => .refCounted).Along (fun s _ s' => ∀ o,
      s'.deletes o = s.deletes o+if s.holders o = 1 ∧ s'.holders o = 0 then 1 else 0)
      selfOwner :=
  counts_are_holders selfOwner
    (System.alongFrom_of_check (fun s a => RefAct.hasRoom s a) (by decide))

example : ((refSystem Bool Nat fun _ => .refCounted).run selfOwner).map
    (fun s => (s.live,s.deletes true,s.deletes false)) = some ([],1,1) := by decide +kernel

def crowd (n : Nat) : List (RefAct Unit Nat) :=
  .create () :: (List.range n).map fun p => .ctorRaw p none (some ())

def crowded (n : Nat) : RefState Unit Nat where
  created := fun _ => true
  refCount := fun _ => toInt32 n
  deletes := fun _ => 0
  late := fun _ => 0
  live := (List.range n).reverse
  ptr := fun p => if p < n then some () else none
  member := fun _ => none
  agenda := []

theorem crowded_step (κ : Unit → RefKind) (n : Nat) :
    (crowded n).step κ (.ctorRaw n none (some ())) = some (crowded (n+1)) := by
  have hcount : Function.update (crowded n).refCount () ((κ ()).addRef (toInt32 n)) =
      (crowded (n+1)).refCount := by
    funext o
    simp only [crowded,Function.update_self,RefKind.addRef_eq,toInt32_add_one,
      Int.natCast_add,Int.natCast_one]
  have hlive : n :: (crowded n).live = (crowded (n+1)).live := by
    simp [crowded,List.range_succ]
  have hptr : Function.update (crowded n).ptr n (some ()) = (crowded (n+1)).ptr := by
    funext p
    have hiff : p < n+1 ↔ p < n ∨ p = n := Nat.lt_succ_iff_lt_or_eq
    by_cases hp : p = n
    · simp only [crowded,hp,Function.update_self,if_pos (Nat.lt_succ_self n)]
    · simp only [crowded,Function.update_of_ne hp,hiff,hp,or_false]
  have hlate : Function.update (crowded n).late () 0 = (crowded (n+1)).late :=
    Function.update_eq_self () _
  have hmember : Function.update (crowded n).member n none = (crowded (n+1)).member :=
    Function.update_eq_self n _
  have hvacant : n ∉ (crowded n).live := by simp [crowded]
  have hstate : (crowded n).ctorRaw κ n none (some ()) = crowded (n+1) := by
    simp only [crowded] at hcount hlive hptr hlate hmember ⊢
    simp only [RefState.ctorRaw,RefState.addRef,RefState.touch,RefState.setCount,
      RefState.construct,hcount,hlive,hptr,hmember,if_true,Nat.add_zero,hlate]
  have hvalid : (crowded n).valid (some ()) = true := rfl
  simp [RefState.step,RefState.vacant,hvacant,hvalid,hstate]

theorem crowded_run (κ : Unit → RefKind) (k n : Nat) :
    (refSystem Unit Nat κ).runFrom (crowded k)
      ((List.range' k n).map fun p => .ctorRaw p none (some ())) = some (crowded (k+n)) := by
  induction n generalizing k with
  | zero => rfl
  | succ n ih =>
    have hstep : (refSystem Unit Nat κ).step (crowded k) (.ctorRaw k none (some ())) =
        some (crowded (k+1)) := crowded_step κ k
    rw [List.range'_succ,List.map_cons,System.runFrom,hstep]
    dsimp only
    rw [ih (k+1)]
    congr 2
    omega

theorem crowded_holders (n : Nat) : (crowded n).holders () = n := by
  have hall : ∀ p ∈ (crowded n).live, decide ((crowded n).ptr p = some ()) = true := by
    intro p hp
    simp only [crowded,List.mem_reverse,List.mem_range] at hp
    simp [crowded,hp]
  have hlength : (crowded n).live.length = n := by simp [crowded]
  rw [RefState.holders,population_eq_length.mpr hall,hlength]

theorem crowd_run (κ : Unit → RefKind) (n : Nat) :
    (refSystem Unit Nat κ).run (crowd n) = some (crowded n) := by
  have hcreate : RefState.init.create () = crowded 0 := by
    simp only [RefState.create,RefState.init,crowded]
    congr 1
  have hstep : (refSystem Unit Nat κ).step RefState.init (.create ()) = some (crowded 0) := by
    rw [← hcreate]
    rfl
  have hrest := crowded_run κ 0 n
  rw [Nat.zero_add] at hrest
  have hinit : (refSystem Unit Nat κ).init = RefState.init := rfl
  rw [System.run,crowd,List.range_eq_range',hinit,System.runFrom,hstep]
  exact hrest

/-- 2^31 pointers hold an object, and the count is the least integer. -/
theorem crowded_object_overflows : ∃ s,
    (refSystem Unit Nat fun _ => .refCountedThreadSafe).run (crowd (2^31)) = some s ∧
    s.holders () = 2^31 ∧ s.refCount () = -2^31 := by
  refine ⟨crowded (2^31),crowd_run _ (2^31),crowded_holders (2^31),?_⟩
  simp only [crowded]
  decide

end MprMq.Base
