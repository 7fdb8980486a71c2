import MprMq.Lib.Scoped
set_option autoImplicit false

/-! `Guard` and `RWGuard`: who holds a lock when guards are moved, released and destroyed in any
order, by any threads. -/

namespace MprMq.Threading
open Lib

/-- Mutexes of the default type; a recursive one would let its owner in again. `strayUnlocks` counts,
for the proofs, the unlocks of a mutex that nobody has locked. -/
structure MutexState (M : Type) where
  locked : M → Bool
  strayUnlocks : Nat

/-- Readers and writers of the locks, and the unlocks of one that nobody holds. -/
structure RWState (M : Type) where
  readers : M → Nat
  writing : M → Bool
  strayUnlocks : Nat

variable {G M : Type} [DecidableEq G] [DecidableEq M]

namespace Mutex

def acquire (m : M) (k : MutexState M) : Reply (MutexState M) :=
  .gets { k with locked := Function.update k.locked m true }

def lock (m : M) (k : MutexState M) : Reply (MutexState M) :=
  if k.locked m then .waits else acquire m k

def tryLock (m : M) (k : MutexState M) : Reply (MutexState M) :=
  if k.locked m then .fails else acquire m k

/-- `timedOut` says that the time is over. -/
def timedLock (timedOut : Bool) (m : M) (k : MutexState M) : Reply (MutexState M) :=
  if k.locked m then if timedOut then .fails else .waits else acquire m k

def unlock (m : M) (k : MutexState M) : MutexState M :=
  if k.locked m then { k with locked := Function.update k.locked m false }
  else { k with strayUnlocks := k.strayUnlocks+1 }

end Mutex

structure GuardRequest (M : Type) where
  value : M
  timeout : Int
  timedOut : Bool
  deriving DecidableEq

def GuardRequest.reply (q : GuardRequest M) (k : MutexState M) : Reply (MutexState M) :=
  if q.timeout = 0 then Mutex.lock q.value k
  else if q.timeout < 0 then Mutex.tryLock q.value k
  else Mutex.timedLock q.timedOut q.value k

def guardKeeper : Keeper (GuardRequest M) M (MutexState M) :=
  ⟨GuardRequest.value,GuardRequest.reply,Mutex.unlock⟩

/-- Guards from the first one on; nothing is locked. -/
def guards : System (Scoped G M (MutexState M)) (GuardAct G (GuardRequest M)) :=
  guardKeeper.system ⟨fun _ => false,0⟩

namespace ReadWriteMutex

def gainRead (m : M) (k : RWState M) : Reply (RWState M) :=
  .gets { k with readers := Function.update k.readers m (k.readers m+1) }

def gainWrite (m : M) (k : RWState M) : Reply (RWState M) :=
  .gets { k with writing := Function.update k.writing m true }

/-- A writer that waits does not keep readers out. The answer of `pthread_rwlock_rdlock` is not
looked at; the lock does not run out of readers here (`EAGAIN`). -/
def acquireRead (m : M) (k : RWState M) : Reply (RWState M) :=
  if k.writing m then .waits else gainRead m k

def acquireWrite (m : M) (k : RWState M) : Reply (RWState M) :=
  if k.writing m ∨ k.readers m ≠ 0 then .waits else gainWrite m k

def timedRead (timedOut : Bool) (m : M) (k : RWState M) : Reply (RWState M) :=
  if k.writing m then if timedOut then .fails else .waits else gainRead m k

def timedWrite (timedOut : Bool) (m : M) (k : RWState M) : Reply (RWState M) :=
  if k.writing m ∨ k.readers m ≠ 0 then if timedOut then .fails else .waits else gainWrite m k

/-- One call for readers and writers. -/
def release (m : M) (k : RWState M) : RWState M :=
  if k.writing m then { k with writing := Function.update k.writing m false }
  else if k.readers m = 0 then { k with strayUnlocks := k.strayUnlocks+1 }
  else { k with readers := Function.update k.readers m (k.readers m-1) }

end ReadWriteMutex

structure RWGuardRequest (M : Type) where
  value : M
  write : Bool
  timeout : Int
  timedOut : Bool
  deriving DecidableEq

def RWGuardRequest.reply (q : RWGuardRequest M) (k : RWState M) : Reply (RWState M) :=
  if q.write then
    if q.timeout ≠ 0 then ReadWriteMutex.timedWrite q.timedOut q.value k
    else ReadWriteMutex.acquireWrite q.value k
  else
    if q.timeout ≠ 0 then ReadWriteMutex.timedRead q.timedOut q.value k
    else ReadWriteMutex.acquireRead q.value k

/-- An `RWGuard` knows its lock only; for the proofs there is beside it what it was locked for. -/
def rwGuardKeeper : Keeper (RWGuardRequest M) (M × Bool) (RWState M) where
  target q := (q.value,q.write)
  reply := RWGuardRequest.reply
  free r := ReadWriteMutex.release r.1

def rwGuards : System (Scoped G (M × Bool) (RWState M)) (GuardAct G (RWGuardRequest M)) :=
  rwGuardKeeper.system ⟨fun _ => 0,fun _ => false,0⟩

section Mutexes

def MutexState.count (k : MutexState M) (m : M) : Nat := (k.locked m).toNat

theorem MutexState.acquire_count {k k' : MutexState M} {m : M} (hfree : k.locked m = false)
    (h : Mutex.acquire m k = .gets k') :
    k'.strayUnlocks = k.strayUnlocks ∧ ∀ x, k'.count x = k.count x + (decide (m = x)).toNat := by
  cases h
  refine ⟨rfl,fun x => ?_⟩
  by_cases hx : x = m
  · subst hx
    simp [MutexState.count,hfree]
  · simp [MutexState.count,Function.update_of_ne hx,Ne.symm hx]

theorem guardKeeper_counts :
    (guardKeeper : Keeper (GuardRequest M) M (MutexState M)).Counts MutexState.count
      fun k => k.strayUnlocks = 0 where
  gets request k k' hstray hreply := by
    have hgets : k.locked request.value = false ∧ Mutex.acquire request.value k = .gets k' := by
      have hreply : request.reply k = .gets k' := hreply
      unfold GuardRequest.reply Mutex.lock Mutex.tryLock Mutex.timedLock at hreply
      split_ifs at hreply with h0 h1 h2 h3 h4 h5
      · exact ⟨by simpa using h1,hreply⟩
      · exact ⟨by simpa using h3,hreply⟩
      · exact ⟨by simpa using h4,hreply⟩
    obtain ⟨hsame,hcount⟩ := MutexState.acquire_count hgets.1 hgets.2
    exact ⟨hsame.trans hstray,hcount⟩
  free m k hstray hpos := by
    have hlocked : k.locked m = true := by
      simpa [MutexState.count,Nat.pos_iff_ne_zero] using hpos
    show (Mutex.unlock m k).strayUnlocks = 0 ∧ _
    have hunlock : Mutex.unlock m k = { k with locked := Function.update k.locked m false } :=
      if_pos hlocked
    rw [show guardKeeper.free m k = Mutex.unlock m k from rfl,hunlock]
    refine ⟨hstray,fun x => ?_⟩
    by_cases hx : x = m
    · subst hx
      simp [MutexState.count,hlocked]
    · simp [MutexState.count,Function.update_of_ne hx,Ne.symm hx]

/-- A mutex is locked exactly while a guard holds it, no two guards hold one mutex, and none is
unlocked that is not locked. -/
theorem guards_exclusive {acts : List (GuardAct G (GuardRequest M))}
    {s : Scoped G M (MutexState M)} (hrun : guards.run acts = some s) :
    s.keeper.strayUnlocks = 0 ∧
    (∀ m, s.keeper.locked m = true ↔ ∃ g ∈ s.live, s.held g = some m) ∧
    ∀ m, ∀ g ∈ s.live, ∀ g' ∈ s.live, s.held g = some m → s.held g' = some m → g = g' := by
  obtain ⟨hbalanced,hstray⟩ := guardKeeper_counts.run rfl (fun _ => rfl) hrun
  refine ⟨hstray,fun m => ?_,fun m g hg g' hg' hheld hother => ?_⟩
  · have hcount := hbalanced.count m
    have hpos : 0 < s.holders m ↔ ∃ g ∈ s.live, s.held g = some m := by
      rw [Scoped.holders,population_pos]
      simp
    rw [← hpos,hcount,MutexState.count]
    cases s.keeper.locked m <;> decide
  · exact hbalanced.unique (Bool.toNat_le _) hg hg' hheld hother

def movedGuard : List (GuardAct Nat (GuardRequest Nat)) :=
  [.construct 0 ⟨7,0,false⟩,.construct 1 ⟨7,-1,false⟩,.moveConstruct 2 0,.destroy 0]

theorem guards_movedGuard : ∃ s : Scoped Nat Nat (MutexState Nat),
    guards.run movedGuard = some s ∧ s.keeper.strayUnlocks = 0 ∧
    (∀ m, s.keeper.locked m = true ↔ ∃ g ∈ s.live, s.held g = some m) ∧
    ∀ m, ∀ g ∈ s.live, ∀ g' ∈ s.live, s.held g = some m → s.held g' = some m → g = g' := by
  have hrun : (guards.run movedGuard).isSome := by decide
  obtain ⟨s,hs⟩ := Option.isSome_iff_exists.mp hrun
  exact ⟨s,hs,guards_exclusive hs⟩

end Mutexes

section ReadWriteMutexes

def RWState.count (k : RWState M) (r : M × Bool) : Nat :=
  if r.2 then (k.writing r.1).toNat else k.readers r.1

/-- Nobody reads while somebody writes. -/
structure RWState.Sound (k : RWState M) : Prop where
  strayUnlocks : k.strayUnlocks = 0
  readers : ∀ m, k.writing m = true → k.readers m = 0

theorem RWState.gainRead_sound {k k' : RWState M} {m : M} (hk : k.Sound)
    (hfree : k.writing m = false) (h : ReadWriteMutex.gainRead m k = .gets k') :
    k'.Sound ∧ ∀ x, k'.count x = k.count x + (decide ((m,false) = x)).toNat := by
  cases h
  refine ⟨⟨hk.strayUnlocks,fun x hx => ?_⟩,?_⟩
  · have hne : x ≠ m := fun e => Bool.noConfusion (hfree.symm.trans (e ▸ hx))
    exact (Function.update_of_ne hne _ _).trans (hk.readers x hx)
  · rintro ⟨x,_ | _⟩
    · by_cases hx : x = m
      · subst hx
        simp [RWState.count]
      · simp [RWState.count,Function.update_of_ne hx,Ne.symm hx]
    · simp [RWState.count]

theorem RWState.gainWrite_sound {k k' : RWState M} {m : M} (hk : k.Sound)
    (hfree : k.writing m = false) (hreaders : k.readers m = 0)
    (h : ReadWriteMutex.gainWrite m k = .gets k') :
    k'.Sound ∧ ∀ x, k'.count x = k.count x + (decide ((m,true) = x)).toNat := by
  cases h
  refine ⟨⟨hk.strayUnlocks,fun x hx => ?_⟩,?_⟩
  · by_cases heq : x = m
    · exact heq ▸ hreaders
    · exact hk.readers x ((Function.update_of_ne heq _ _).symm.trans hx)
  · rintro ⟨x,_ | _⟩
    · simp [RWState.count]
    · by_cases hx : x = m
      · subst hx
        simp [RWState.count,hfree]
      · simp [RWState.count,Function.update_of_ne hx,Ne.symm hx]

/-- The one call gives back what its guard was locked for. -/
theorem RWState.release_sound {k : RWState M} {r : M × Bool} (hk : k.Sound)
    (hpos : 0 < k.count r) : (ReadWriteMutex.release r.1 k).Sound ∧
      ∀ x, (ReadWriteMutex.release r.1 k).count x + (decide (r = x)).toNat = k.count x := by
  obtain ⟨m,_ | _⟩ := r
  · have hreaders : 0 < k.readers m := hpos
    have hwriting : k.writing m = false := by
      by_contra hwriting
      have hnone := hk.readers m (by simpa using hwriting)
      omega
    have hrelease : ReadWriteMutex.release m k =
        { k with readers := Function.update k.readers m (k.readers m-1) } := by
      rw [ReadWriteMutex.release,hwriting,if_neg (by decide),if_neg (by omega)]
    rw [hrelease]
    refine ⟨⟨hk.strayUnlocks,fun x hx => ?_⟩,?_⟩
    · have hne : x ≠ m := fun e => Bool.noConfusion (hwriting.symm.trans (e ▸ hx))
      exact (Function.update_of_ne hne _ _).trans (hk.readers x hx)
    · rintro ⟨x,_ | _⟩
      · by_cases hx : x = m
        · subst hx
          simp [RWState.count]
          omega
        · simp [RWState.count,Function.update_of_ne hx,Ne.symm hx]
      · simp [RWState.count]
  · have hwriting : k.writing m = true := by
      simpa [RWState.count,Nat.pos_iff_ne_zero] using hpos
    have hrelease : ReadWriteMutex.release m k =
        { k with writing := Function.update k.writing m false } := if_pos hwriting
    rw [hrelease]
    refine ⟨⟨hk.strayUnlocks,fun x hx => ?_⟩,?_⟩
    · by_cases heq : x = m
      · exact heq ▸ hk.readers m hwriting
      · exact hk.readers x ((Function.update_of_ne heq _ _).symm.trans hx)
    · rintro ⟨x,_ | _⟩
      · simp [RWState.count]
      · by_cases hx : x = m
        · subst hx
          simp [RWState.count,hwriting]
        · simp [RWState.count,Function.update_of_ne hx,Ne.symm hx]

theorem rwGuardKeeper_counts :
    (rwGuardKeeper : Keeper (RWGuardRequest M) (M × Bool) (RWState M)).Counts RWState.count
      RWState.Sound where
  gets request k k' hk hreply := by
    have hreply : request.reply k = .gets k' := hreply
    show k'.Sound ∧ ∀ x, k'.count x =
      k.count x + (decide ((request.value,request.write) = x)).toNat
    unfold RWGuardRequest.reply at hreply
    split at hreply
    case isTrue hwrite =>
      rw [hwrite]
      have hgets : ¬(k.writing request.value ∨ k.readers request.value ≠ 0) ∧
          ReadWriteMutex.gainWrite request.value k = .gets k' := by
        unfold ReadWriteMutex.timedWrite ReadWriteMutex.acquireWrite at hreply
        split_ifs at hreply with h0 h1 h2 h3
        · exact ⟨h1,hreply⟩
        · exact ⟨h3,hreply⟩
      obtain ⟨hfree,hgain⟩ := hgets
      rw [not_or,not_not] at hfree
      exact RWState.gainWrite_sound hk (by simpa using hfree.1) hfree.2 hgain
    case isFalse hwrite =>
      rw [Bool.eq_false_iff.mpr hwrite]
      have hgets : k.writing request.value = false ∧
          ReadWriteMutex.gainRead request.value k = .gets k' := by
        unfold ReadWriteMutex.timedRead ReadWriteMutex.acquireRead at hreply
        split_ifs at hreply with h0 h1 h2 h3
        · exact ⟨by simpa using h1,hreply⟩
        · exact ⟨by simpa using h3,hreply⟩
      exact RWState.gainRead_sound hk hgets.1 hgets.2
  free r k hk hpos := RWState.release_sound hk hpos

/-- A lock has as many readers as guards that were locked for reading, it is written exactly while
a guard was locked for writing, and this one is alone with the lock. -/
theorem rwGuards_exclusive {acts : List (GuardAct G (RWGuardRequest M))}
    {s : Scoped G (M × Bool) (RWState M)} (hrun : rwGuards.run acts = some s) :
    s.keeper.strayUnlocks = 0 ∧
    (∀ m, s.keeper.readers m = s.holders (m,false)) ∧
    (∀ m, s.keeper.writing m = true ↔ ∃ g ∈ s.live, s.held g = some (m,true)) ∧
    ∀ m write, ∀ g ∈ s.live, ∀ g' ∈ s.live,
      s.held g = some (m,true) → s.held g' = some (m,write) → g = g' := by
  obtain ⟨hbalanced,hsound⟩ :=
    rwGuardKeeper_counts.run ⟨rfl,fun _ h => absurd h (by simp)⟩
      (fun r => by simp [RWState.count]) hrun
  have hwriting : ∀ m, s.keeper.writing m = true ↔ ∃ g ∈ s.live, s.held g = some (m,true) := by
    intro m
    have hpos : 0 < s.holders (m,true) ↔ ∃ g ∈ s.live, s.held g = some (m,true) := by
      rw [Scoped.holders,population_pos]
      simp
    rw [← hpos,hbalanced.count (m,true),RWState.count,if_pos rfl]
    cases s.keeper.writing m <;> decide
  refine ⟨hsound.strayUnlocks,fun m => (hbalanced.count (m,false)).symm,hwriting,?_⟩
  intro m write g hg g' hg' hheld hother
  cases write with
  | false =>
    have hreaders := hbalanced.count_pos hg' hother
    have hnone := hsound.readers m ((hwriting m).mpr ⟨g,hg,hheld⟩)
    rw [RWState.count,if_neg (by simp),hnone] at hreaders
    exact absurd hreaders (Nat.lt_irrefl 0)
  | true =>
    have hone : s.keeper.count (m,true) ≤ 1 := Bool.toNat_le _
    exact hbalanced.unique hone hg hg' hheld hother

def readersThenWriter : List (GuardAct Nat (RWGuardRequest Nat)) :=
  [.construct 0 ⟨7,false,0,false⟩,.construct 1 ⟨7,false,5,true⟩,.construct 2 ⟨7,true,5,true⟩,
    .moveConstruct 3 1,.destroy 0,.release 3,.construct 4 ⟨7,true,0,false⟩]

theorem rwGuards_readersThenWriter : ∃ s : Scoped Nat (Nat × Bool) (RWState Nat),
    rwGuards.run readersThenWriter = some s ∧ s.keeper.strayUnlocks = 0 ∧
    (∀ m, s.keeper.readers m = s.holders (m,false)) ∧
    (∀ m, s.keeper.writing m = true ↔ ∃ g ∈ s.live, s.held g = some (m,true)) ∧
    ∀ m write, ∀ g ∈ s.live, ∀ g' ∈ s.live,
      s.held g = some (m,true) → s.held g' = some (m,write) → g = g' := by
  have hrun : (rwGuards.run readersThenWriter).isSome := by decide
  obtain ⟨s,hs⟩ := Option.isSome_iff_exists.mp hrun
  exact ⟨s,hs,rwGuards_exclusive hs⟩

end ReadWriteMutexes

end MprMq.Threading
