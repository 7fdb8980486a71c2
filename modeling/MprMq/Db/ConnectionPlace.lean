import Mathlib.Data.List.Count
import MprMq.Db.PoolSize
set_option autoImplicit false

/-! Where a connection is: with its clients, on its way back to a pool, idle in
one, or destroyed. The references to it and its own fields follow from the place. -/

namespace MprMq.Db
open MprMq.Lib

/-- `returning` is the time from the last drop, or the call of `Put`, to the moment
its thread has the lock of the pool. -/
inductive Place where
  | absent : Place
  | held : Place
  | returning : ThreadId → Place
  | idle : PoolId → Place
  | destroyed : Place
  deriving DecidableEq, Repr

def Place.refs (clients : Nat) : Place → Int
  | .held => clients
  | .idle _ => 1
  | _ => 0

def ids (entries : List Entry) : List ConnId := entries.map Entry.dbConnection

def ConnectionHeap.idle (s : ConnectionHeap) (p : PoolId) : List ConnId :=
  match s.pools p with
  | some pool => ids pool.connectionPool
  | none => []

def ConnectionHeap.Returning (s : ConnectionHeap) (thread : ThreadId) (c : ConnId) : Prop :=
  ∃ p now, s.task thread = some (p,.put (some c) now)

def ConnectionHeap.idleCount (s : ConnectionHeap) (p : PoolId) (extra : List ConnId)
    (q : PoolId) (c : ConnId) : Nat :=
  (s.idle q).count c + if q = p then extra.count c else 0

/-- A connection is in this place and in no other. -/
structure ConnectionHeap.At (s : ConnectionHeap) (p : PoolId) (extra : List ConnId)
    (c : ConnId) (place : Place) : Prop where
  absent : place = .absent ↔ s.next ≤ c
  held : place = .held ↔ 0 < s.clients c
  returning : ∀ thread, place = .returning thread ↔ s.Returning thread c
  idle : ∀ q, s.idleCount p extra q c = if place = .idle q then 1 else 0
  refCount : (s.conns c).refCount = place.refs (s.clients c)
  cleared : place ≠ .held → (s.conns c).connectionPool = none
  deleted : (s.conns c).deleted = if place = .destroyed then 1 else 0

def ConnectionHeap.Owned (s : ConnectionHeap) (p : PoolId) (extra : List ConnId) : Prop :=
  ∀ c, ∃ place, s.At p extra c place

structure ConnectionHeap.Agree (s t : ConnectionHeap) (p : PoolId) (extra extra' : List ConnId)
    (c : ConnId) : Prop where
  next : t.next ≤ c ↔ s.next ≤ c
  clients : t.clients c = s.clients c
  returning : ∀ thread, t.Returning thread c ↔ s.Returning thread c
  idle : ∀ q, t.idleCount p extra' q c = s.idleCount p extra q c
  refCount : (t.conns c).refCount = (s.conns c).refCount
  connectionPool : (t.conns c).connectionPool = (s.conns c).connectionPool
  deleted : (t.conns c).deleted = (s.conns c).deleted

theorem ConnectionHeap.At.agree {s t : ConnectionHeap} {p : PoolId} {extra extra' : List ConnId}
    {c : ConnId} {place : Place} (h : s.At p extra c place) (ha : s.Agree t p extra extra' c) :
    t.At p extra' c place where
  absent := h.absent.trans ha.next.symm
  held := by rw [ha.clients]; exact h.held
  returning := fun thread => (h.returning thread).trans (ha.returning thread).symm
  idle := fun q => (ha.idle q).trans (h.idle q)
  refCount := by rw [ha.refCount,ha.clients]; exact h.refCount
  cleared := fun hp => ha.connectionPool.trans (h.cleared hp)
  deleted := ha.deleted.trans h.deleted

theorem ConnectionHeap.At.clients_eq_zero {s : ConnectionHeap} {p : PoolId}
    {extra : List ConnId} {c : ConnId} {place : Place} (h : s.At p extra c place)
    (hplace : place ≠ .held) : s.clients c = 0 := by
  have hheld := h.held
  simp only [hplace,false_iff] at hheld
  omega

/-- A step that concerns one connection needs a new place for that one only. -/
theorem ConnectionHeap.Owned.change {s t : ConnectionHeap} {p : PoolId}
    {extra extra' : List ConnId} (h : s.Owned p extra) (c : ConnId)
    (hc : ∀ place, s.At p extra c place → ∃ place', t.At p extra' c place')
    (hother : ∀ other, other ≠ c → s.Agree t p extra extra' other) : t.Owned p extra' := by
  intro other
  obtain ⟨place,hat⟩ := h other
  by_cases ho : other = c
  · subst other
    exact hc place hat
  · exact ⟨place,hat.agree (hother other ho)⟩

theorem ConnectionHeap.Owned.same {s t : ConnectionHeap} {p : PoolId}
    {extra extra' : List ConnId} (h : s.Owned p extra)
    (hall : ∀ c, s.Agree t p extra extra' c) : t.Owned p extra' := by
  intro c
  obtain ⟨place,hat⟩ := h c
  exact ⟨place,hat.agree (hall c)⟩

theorem ConnectionHeap.Owned.anyPool {s : ConnectionHeap} {p q : PoolId} (h : s.Owned p []) :
    s.Owned q [] := by
  intro c
  obtain ⟨place,hat⟩ := h c
  refine ⟨place,hat.absent,hat.held,hat.returning,?_,hat.refCount,hat.cleared,hat.deleted⟩
  intro r
  have hr := hat.idle r
  simp only [ConnectionHeap.idleCount,List.count_nil,ite_self] at hr ⊢
  exact hr

theorem idle_congr {s t : ConnectionHeap} {p : PoolId} (h : t.pools p = s.pools p) :
    t.idle p = s.idle p := by simp [ConnectionHeap.idle,h]

theorem idle_eq {s : ConnectionHeap} {p : PoolId} {pool : ConnectionPool}
    (h : s.pools p = some pool) : s.idle p = ids pool.connectionPool := by
  simp [ConnectionHeap.idle,h]

theorem ConnectionHeap.Frame.agree {s t : ConnectionHeap} (h : s.Frame t) (p : PoolId)
    (extra : List ConnId) {c : ConnId} (hr : (t.conns c).refCount = (s.conns c).refCount)
    (hp : (t.conns c).connectionPool = (s.conns c).connectionPool)
    (hd : (t.conns c).deleted = (s.conns c).deleted) : s.Agree t p extra extra c where
  next := by rw [h.next]
  clients := by rw [h.clients]
  returning := fun thread => by simp only [ConnectionHeap.Returning,h.task]
  idle := fun q => by
    simp only [ConnectionHeap.idleCount,idle_congr (s := s) (congrFun h.pools q)]
  refCount := hr
  connectionPool := hp
  deleted := hd

theorem modify_agree (s : ConnectionHeap) (p : PoolId) (extra : List ConnId) {c other : ConnId}
    (f : DBConnection → DBConnection) (ho : other ≠ c) :
    s.Agree (s.modify c f) p extra extra other := by
  have hsame : (s.modify c f).conns other = s.conns other := by
    simp [ConnectionHeap.modify,Function.update_of_ne ho]
  exact (modify_frame s c f).agree p extra (by rw [hsame]) (by rw [hsame]) (by rw [hsame])

def DBConnection.returned (o : DBConnection) : DBConnection :=
  { o with refCount := o.refCount-1, connectionPool := none }

def DBConnection.disposed (o : DBConnection) : DBConnection :=
  { o with refCount := o.refCount-1, connectionPool := none, deleted := o.deleted+1 }

theorem modify_modify (s : ConnectionHeap) (c : ConnId) (f g : DBConnection → DBConnection) :
    (s.modify c f).modify c g = s.modify c (fun o => g (f o)) := by
  simp [ConnectionHeap.modify]

@[simp] theorem modify_conns_self (s : ConnectionHeap) (c : ConnId)
    (f : DBConnection → DBConnection) : (s.modify c f).conns c = f (s.conns c) := by
  simp [ConnectionHeap.modify]

theorem release_shared {s : ConnectionHeap} {c : ConnId} (h : (s.conns c).refCount ≠ 1) :
    s.release c = (s.modify c (fun o => { o with refCount := o.refCount-1 }),none) := by
  have hne : (s.conns c).refCount - 1 ≠ 0 := by omega
  simp [ConnectionHeap.release,hne]

theorem release_last {s : ConnectionHeap} {c : ConnId} (h : (s.conns c).refCount = 1) :
    s.release c =
      match (s.conns c).connectionPool with
      | some p =>
        if (s.conns c).recyclable then (s.modify c DBConnection.returned,some p)
        else (s.modify c DBConnection.disposed,none)
      | none => (s.modify c DBConnection.disposed,none) := by
  have hzero : (s.conns c).refCount - 1 = 0 := by omega
  simp only [ConnectionHeap.release,ConnectionHeap.dispose,modify_conns_self,hzero,if_true,
    modify_modify,ConnectionHeap.delete]
  rfl

theorem release_unpooled {s : ConnectionHeap} {c : ConnId} (h : (s.conns c).refCount = 1)
    (hp : (s.conns c).connectionPool = none) :
    s.release c = (s.modify c DBConnection.disposed,none) := by
  rw [release_last h,hp]

@[simp] theorem modify_next (s : ConnectionHeap) (c : ConnId)
    (f : DBConnection → DBConnection) : (s.modify c f).next = s.next := rfl

@[simp] theorem modify_clients (s : ConnectionHeap) (c : ConnId)
    (f : DBConnection → DBConnection) : (s.modify c f).clients = s.clients := rfl

@[simp] theorem modify_task (s : ConnectionHeap) (c : ConnId)
    (f : DBConnection → DBConnection) : (s.modify c f).task = s.task := rfl

@[simp] theorem modify_idle (s : ConnectionHeap) (c : ConnId)
    (f : DBConnection → DBConnection) (p : PoolId) : (s.modify c f).idle p = s.idle p := rfl

theorem ConnectionHeap.At.in_hand {s : ConnectionHeap} {p : PoolId} {extra : List ConnId}
    {c : ConnId} {place : Place} (h : s.At p (c :: extra) c place) : place = .idle p := by
  have hcount := h.idle p
  simp only [ConnectionHeap.idleCount,if_true,List.count_cons_self] at hcount
  by_cases hp : place = .idle p
  · exact hp
  · rw [if_neg hp] at hcount
    omega

/-- A connection in hand is in hand once and in no list. -/
theorem ConnectionHeap.At.idleCount_tail {s : ConnectionHeap} {p : PoolId}
    {extra : List ConnId} {c : ConnId} {place : Place} (h : s.At p (c :: extra) c place)
    (q : PoolId) : s.idleCount p extra q c = 0 := by
  have hplace := h.in_hand
  subst place
  have hcount := h.idle q
  simp only [ConnectionHeap.idleCount] at hcount ⊢
  by_cases hq : q = p
  · subst q
    simp only [if_true,List.count_cons_self] at hcount ⊢
    omega
  · simpa [hq,Ne.symm hq] using hcount

/-- An entry in hand is the one reference to its connection, and destroys it. -/
theorem discard_one {s : ConnectionHeap} {p : PoolId} {extra : List ConnId} {c : ConnId}
    (h : s.Owned p (c :: extra)) :
    s.release c = (s.modify c DBConnection.disposed,none) ∧
      (s.modify c DBConnection.disposed).Owned p extra := by
  obtain ⟨place,hat⟩ := h c
  have hidle := hat.in_hand
  subst place
  refine ⟨release_unpooled hat.refCount (hat.cleared (by simp)),h.change c ?_ ?_⟩
  · intro place hat
    have htail := hat.idleCount_tail
    have hidle := hat.in_hand
    subst place
    refine ⟨.destroyed,⟨?_,?_,?_,?_,?_,?_,?_⟩⟩
    · simpa using hat.absent
    · simpa using hat.held
    · intro thread
      simpa [ConnectionHeap.Returning] using hat.returning thread
    · intro q
      simpa [ConnectionHeap.idleCount] using htail q
    · have hr := hat.refCount
      simp only [Place.refs] at hr ⊢
      simp [DBConnection.disposed,hr]
    · simp [DBConnection.disposed]
    · have hd := hat.deleted
      simp only [reduceCtorEq,if_false] at hd
      simp [DBConnection.disposed,hd]
  · intro other ho
    have hagree := modify_agree s p extra DBConnection.disposed ho
    refine { hagree with idle := fun q => ?_ }
    simp [ConnectionHeap.idleCount,List.count_cons_of_ne (Ne.symm ho)]

theorem discard_owned {s : ConnectionHeap} {p : PoolId} {garbage : List Entry}
    {extra : List ConnId} (h : s.Owned p (ids garbage ++ extra)) :
    ∃ t, s.discard garbage = some t ∧ t.Owned p extra := by
  induction garbage generalizing s with
  | nil => exact ⟨s,rfl,h⟩
  | cons e garbage ih =>
    obtain ⟨hr,howned⟩ := discard_one (c := e.dbConnection) h
    obtain ⟨t,ht,hto⟩ := ih howned
    exact ⟨t,by simp only [ConnectionHeap.discard,hr,ht],hto⟩

end MprMq.Db
