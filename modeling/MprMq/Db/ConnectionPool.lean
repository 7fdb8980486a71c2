import Mathlib.Data.List.TakeWhile
import Mathlib.Data.List.Perm.Basic
import MprMq.Db.ConnectionInfo
import MprMq.Lib.SizeT
set_option autoImplicit false

/-! `ConnectionPool`: the idle list, its hand-kept length, and what `get`, `Put`
and `Clear` do to them while they hold the lock. Times are in microseconds. -/

namespace MprMq.Db
open MprMq.Lib

abbrev ConnId := Nat

structure Entry where
  dbConnection : ConnId
  lastUsed : Int
  deriving DecidableEq, Repr

structure ConnectionPool where
  limit : Nat
  lifeTime : Int
  size : Nat
  connectionPool : List Entry
  deriving DecidableEq, Repr

/-- The constructor. `rawSize` and `rawIdle` are what `Get` finds in its
uninitialized local at the two calls. -/
def ConnectionPool.create (info : ConnectionInfo) (rawSize rawIdle : Int) : ConnectionPool where
  limit := SizeT.ofInt (info.getInt rawSize "@pool_size".toList 16)
  lifeTime := info.getInt rawIdle "@pool_max_idle".toList 600 * 1000000
  size := 0
  connectionPool := []

def Entry.expired (lifeTime now : Int) (e : Entry) : Bool := e.lastUsed + lifeTime < now

/-- The loop of `get` and `Put` that splices expired entries off the front of
`connection_pool_` onto the front of `garbage` and counts `size_` down. -/
def expireLoop (lifeTime now : Int) :
    List Entry → List Entry → Nat → List Entry × List Entry × Nat
  | [], garbage, size => ([],garbage,size)
  | e :: rest, garbage, size =>
    if e.expired lifeTime now then expireLoop lifeTime now rest (e :: garbage) (SizeT.dec size)
    else (e :: rest,garbage,size)

/-- A call on a pool that has read the clock and not yet taken the lock: `get`
inside `Open`, `Put` of a connection or of null (`GC`), and `Clear`. -/
inductive Call where
  | get : Int → Call
  | put : Option ConnId → Int → Call
  | clear : Call
  deriving DecidableEq, Repr

/-- What a critical section leaves behind: the pool, the entries in the local
`garbage`, and the entry `get` takes off the back. -/
structure Section where
  pool : ConnectionPool
  garbage : List Entry
  taken : Option Entry
  deriving DecidableEq, Repr

def ConnectionPool.get (pool : ConnectionPool) (now : Int) : Section :=
  let (idle,garbage,size) := expireLoop pool.lifeTime now pool.connectionPool [] pool.size
  match idle.getLast? with
  | some back =>
    ⟨{ pool with connectionPool := idle.dropLast, size := SizeT.dec size },garbage,some back⟩
  | none => ⟨{ pool with connectionPool := idle, size := size },garbage,none⟩

def ConnectionPool.push (pool : ConnectionPool) (connection : Option ConnId) (now : Int) :
    ConnectionPool :=
  match connection with
  | some c => { pool with
      connectionPool := pool.connectionPool ++ [⟨c,now⟩], size := pool.size+1 }
  | none => pool

/-- `Put`; splicing the first node of an empty list is `none`. -/
def ConnectionPool.put (pool : ConnectionPool) (connection : Option ConnId) (now : Int) :
    Option Section :=
  let pool := pool.push connection now
  let (idle,garbage,size) := expireLoop pool.lifeTime now pool.connectionPool [] pool.size
  if size > pool.limit then
    match idle with
    | [] => none
    | front :: rest =>
      some ⟨{ pool with connectionPool := rest, size := SizeT.dec size },front :: garbage,none⟩
  else some ⟨{ pool with connectionPool := idle, size := size },garbage,none⟩

def ConnectionPool.clear (pool : ConnectionPool) : Section :=
  ⟨{ pool with connectionPool := [], size := 0 },pool.connectionPool,none⟩

def ConnectionPool.locked (pool : ConnectionPool) : Call → Option Section
  | .get now => some (pool.get now)
  | .put connection now => pool.put connection now
  | .clear => some pool.clear

def Call.pushed : Call → List Entry
  | .put (some c) now => [⟨c,now⟩]
  | _ => []

structure ConnectionPool.Sized (pool : ConnectionPool) : Prop where
  size : pool.size = pool.connectionPool.length
  limit : pool.size ≤ pool.limit

theorem ConnectionPool.Sized.length_le {pool : ConnectionPool} (h : pool.Sized) :
    pool.connectionPool.length ≤ pool.limit := h.size ▸ h.limit

theorem sized_create (info : ConnectionInfo) (rawSize rawIdle : Int) :
    (ConnectionPool.create info rawSize rawIdle).Sized := ⟨rfl,Nat.zero_le _⟩

/-- The loop moves the longest expired beginning, and every count it takes is there. -/
theorem expireLoop_eq (lifeTime now : Int) (idle garbage : List Entry) (more : Nat) :
    expireLoop lifeTime now idle garbage (idle.length+more) =
      (idle.dropWhile (Entry.expired lifeTime now),
        (idle.takeWhile (Entry.expired lifeTime now)).reverse ++ garbage,
        (idle.dropWhile (Entry.expired lifeTime now)).length+more) := by
  induction idle generalizing garbage with
  | nil => rfl
  | cons e rest ih =>
    by_cases he : e.expired lifeTime now = true
    · have hdec : SizeT.dec ((e :: rest).length+more) = rest.length+more := by
        rw [List.length_cons,Nat.add_right_comm]
        exact SizeT.dec_succ _
      simp only [expireLoop,he,if_true,hdec,ih,List.dropWhile_cons_of_pos,
        List.takeWhile_cons_of_pos,List.reverse_cons,List.append_assoc,List.cons_append,
        List.nil_append]
    · simp [expireLoop,he]

theorem expireLoop_sized (lifeTime now : Int) (idle : List Entry) :
    expireLoop lifeTime now idle [] idle.length =
      (idle.dropWhile (Entry.expired lifeTime now),
        (idle.takeWhile (Entry.expired lifeTime now)).reverse,
        (idle.dropWhile (Entry.expired lifeTime now)).length) := by
  simpa using expireLoop_eq lifeTime now idle [] 0

def ConnectionPool.fresh (pool : ConnectionPool) (idle : List Entry) (now : Int) : List Entry :=
  idle.dropWhile (Entry.expired pool.lifeTime now)

def ConnectionPool.stale (pool : ConnectionPool) (idle : List Entry) (now : Int) : List Entry :=
  (idle.takeWhile (Entry.expired pool.lifeTime now)).reverse

theorem stale_fresh_perm (pool : ConnectionPool) (idle : List Entry) (now : Int) :
    (pool.stale idle now ++ pool.fresh idle now).Perm idle := by
  have h := List.takeWhile_append_dropWhile (p := Entry.expired pool.lifeTime now) (l := idle)
  exact ((List.reverse_perm _).append_right _).trans (List.Perm.of_eq h)

theorem get_eq {pool : ConnectionPool} (h : pool.Sized) (now : Int) :
    pool.get now =
      ⟨{ pool with
          connectionPool := (pool.fresh pool.connectionPool now).dropLast
          size := (pool.fresh pool.connectionPool now).dropLast.length },
        pool.stale pool.connectionPool now,(pool.fresh pool.connectionPool now).getLast?⟩ := by
  simp only [ConnectionPool.get,h.size,expireLoop_sized,ConnectionPool.fresh,
    ConnectionPool.stale]
  cases hl : (pool.connectionPool.dropWhile (Entry.expired pool.lifeTime now)).getLast? with
  | none =>
    have hnil := List.getLast?_eq_none_iff.mp hl
    simp [hnil]
  | some back =>
    have hne : pool.connectionPool.dropWhile (Entry.expired pool.lifeTime now) ≠ [] := by
      intro hnil
      simp [hnil] at hl
    have hpos := List.length_pos_iff.mpr hne
    have hdec := SizeT.dec_add_one hpos
    simp only [List.length_dropLast,Section.mk.injEq,ConnectionPool.mk.injEq,true_and,and_true]
    omega

theorem push_eq (pool : ConnectionPool) (connection : Option ConnId) (now : Int) :
    pool.push connection now =
      { pool with
        connectionPool := pool.connectionPool ++ (Call.put connection now).pushed
        size := pool.size + (Call.put connection now).pushed.length } := by
  cases connection <;> simp [ConnectionPool.push,Call.pushed]

theorem pushed_length_le (call : Call) : call.pushed.length ≤ 1 := by
  rcases call with now | ⟨_ | c,now⟩ | - <;> simp [Call.pushed]

/-- At most one fresh entry is over the limit, and it goes from the front. -/
theorem put_eq {pool : ConnectionPool} (h : pool.Sized) (connection : Option ConnId) (now : Int)
    {fresh : List Entry}
    (hfresh : fresh = pool.fresh (pool.connectionPool ++ (Call.put connection now).pushed) now) :
    pool.put connection now =
      some ⟨{ pool with
          connectionPool := fresh.drop (fresh.length - pool.limit)
          size := (fresh.drop (fresh.length - pool.limit)).length },
        fresh.take (fresh.length - pool.limit) ++
          pool.stale (pool.connectionPool ++ (Call.put connection now).pushed) now,none⟩ := by
  have hlen : fresh.length ≤ pool.limit+1 := by
    have hf := (List.dropWhile_suffix (Entry.expired pool.lifeTime now)
      (l := pool.connectionPool ++ (Call.put connection now).pushed)).length_le
    have hp := pushed_length_le (.put connection now)
    have hl := h.length_le
    rw [hfresh,ConnectionPool.fresh]
    rw [List.length_append] at hf
    omega
  have hsize : pool.size + (Call.put connection now).pushed.length =
      (pool.connectionPool ++ (Call.put connection now).pushed).length := by
    rw [h.size,List.length_append]
  simp only [ConnectionPool.put,push_eq,hsize,expireLoop_sized]
  simp only [ConnectionPool.fresh] at hfresh
  rw [← hfresh,ConnectionPool.stale]
  by_cases hover : fresh.length > pool.limit
  · cases fresh with
    | nil => simp at hover
    | cons front rest =>
      have hone : (front :: rest).length - pool.limit = 1 := by omega
      rw [if_pos hover,hone]
      simp
  · have hzero : fresh.length - pool.limit = 0 := by omega
    simp [hzero,hover]

/-- What every critical section does to a pool that counts right: it never fails,
counts right again, and neither loses nor doubles an entry. -/
structure Section.Spec (pool : ConnectionPool) (call : Call) (r : Section) : Prop where
  sized : r.pool.Sized
  limit : r.pool.limit = pool.limit
  lifeTime : r.pool.lifeTime = pool.lifeTime
  perm : (r.garbage ++ (r.pool.connectionPool ++ r.taken.toList)).Perm
    (pool.connectionPool ++ call.pushed)
  taken : r.taken.isSome → ∃ now, call = .get now

theorem dropLast_getLast?_toList (l : List Entry) : l.dropLast ++ l.getLast?.toList = l := by
  cases h : l.getLast? with
  | none => simp [List.getLast?_eq_none_iff.mp h]
  | some e => exact List.dropLast_append_getLast? e h

theorem locked_spec {pool : ConnectionPool} (h : pool.Sized) (call : Call) :
    ∃ r, pool.locked call = some r ∧ r.Spec pool call := by
  cases call with
  | get now =>
    refine ⟨_,rfl,?_⟩
    have hperm := stale_fresh_perm pool pool.connectionPool now
    have hsub := hperm.length_eq
    rw [get_eq h]
    refine ⟨⟨rfl,?_⟩,rfl,rfl,?_,fun _ => ⟨now,rfl⟩⟩
    · have hl := h.length_le
      rw [List.length_append] at hsub
      simp only [List.length_dropLast]
      omega
    · simp only [dropLast_getLast?_toList,Call.pushed,List.append_nil]
      exact hperm
  | put connection now =>
    refine ⟨_,put_eq h connection now rfl,⟨rfl,?_⟩,rfl,rfl,?_,by simp⟩
    · simp only [List.length_drop]
      omega
    · refine List.Perm.trans ?_ (stale_fresh_perm pool _ now)
      simp only [Option.toList_none,List.append_nil]
      refine (List.Perm.append_right _ List.perm_append_comm).trans ?_
      rw [List.append_assoc,List.take_append_drop]
  | clear =>
    refine ⟨_,rfl,⟨rfl,by simp [ConnectionPool.clear]⟩,rfl,rfl,?_,by simp [ConnectionPool.clear]⟩
    simp [ConnectionPool.clear,Call.pushed]

theorem spec_of_locked {pool : ConnectionPool} {call : Call} {r : Section} (h : pool.Sized)
    (hr : pool.locked call = some r) : r.Spec pool call := by
  obtain ⟨r',hr',hspec⟩ := locked_spec h call
  rw [hr,Option.some.injEq] at hr'
  subst r'
  exact hspec

/-- Every decrement of `size_` met a positive count: a wrapped one would make this
sum too large. -/
theorem Section.Spec.counts {pool : ConnectionPool} {call : Call} {r : Section}
    (h : pool.Sized) (hr : r.Spec pool call) :
    r.pool.size + (r.garbage.length + r.taken.toList.length) =
      pool.size + call.pushed.length := by
  have hlen := hr.perm.length_eq
  simp only [List.length_append] at hlen
  rw [hr.sized.size,h.size]
  omega

theorem fresh_append (pool : ConnectionPool) (idle : List Entry) (e : Entry) (now : Int)
    (he : now ≤ e.lastUsed + pool.lifeTime) :
    pool.fresh (idle ++ [e]) now = pool.fresh idle now ++ [e] := by
  have hnot : e.expired pool.lifeTime now = false := by simpa [Entry.expired] using he
  simp only [ConnectionPool.fresh,List.dropWhile_append,List.dropWhile_cons,hnot]
  cases idle.dropWhile (Entry.expired pool.lifeTime now) <;> simp

theorem put_keeps {pool : ConnectionPool} {c : ConnId} {now : Int} {r : Section}
    (h : pool.Sized) (hlimit : 1 ≤ pool.limit) (hlife : 0 ≤ pool.lifeTime)
    (hr : pool.locked (.put (some c) now) = some r) :
    r.pool.connectionPool.getLast? = some ⟨c,now⟩ := by
  have hfresh := fresh_append pool pool.connectionPool ⟨c,now⟩ now (by dsimp only; omega)
  simp only [ConnectionPool.locked,put_eq h (some c) now rfl,Option.some.injEq] at hr
  subst r
  simp only [Call.pushed,hfresh,List.length_append,List.length_singleton]
  rw [List.getLast?_drop]
  have hlt : ¬ (pool.fresh pool.connectionPool now ++ [(⟨c,now⟩ : Entry)]).length ≤
      (pool.fresh pool.connectionPool now).length + 1 - pool.limit := by
    simp only [List.length_append,List.length_singleton]
    omega
  rw [if_neg hlt]
  simp

theorem locked_empty {pool : ConnectionPool} {call : Call} {r : Section}
    (h : pool.Sized) (hlife : pool.lifeTime < 0) (hempty : pool.connectionPool = [])
    (hr : pool.locked call = some r) : r.pool.connectionPool = [] := by
  cases call with
  | get now =>
    simp only [ConnectionPool.locked,get_eq h,Option.some.injEq] at hr
    subst r
    simp [ConnectionPool.fresh,hempty]
  | put connection now =>
    simp only [ConnectionPool.locked,put_eq h connection now rfl,Option.some.injEq] at hr
    subst r
    cases connection with
    | none => simp [ConnectionPool.fresh,hempty,Call.pushed]
    | some c =>
      have hnew : Entry.expired pool.lifeTime now ⟨c,now⟩ = true := by
        simp [Entry.expired]
        omega
      simp [ConnectionPool.fresh,hempty,Call.pushed,hnew]
  | clear =>
    simp only [ConnectionPool.locked,ConnectionPool.clear,Option.some.injEq] at hr
    subst r
    rfl

end MprMq.Db
