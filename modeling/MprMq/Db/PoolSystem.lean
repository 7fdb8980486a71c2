import Mathlib.Logic.Function.Basic
import MprMq.Db.ConnectionPool
import MprMq.Lib.Run
set_option autoImplicit false

/-! Connections, the references to them, the pools they go back to, and the threads
that call the pools. One step is what a thread does from one moment at which another
can be seen to move to the next: up to reading the clock before a lock is asked for,
and from taking the lock to the end of the call, which after the unlock touches only
connections that no one else refers to. -/

namespace MprMq.Db
open MprMq.Lib

abbrev PoolId := Nat

abbrev ThreadId := Nat

/-- A `MysqlConnection` object. `deleted` counts how often it was destroyed, and
`nativeOpen` says that the handle in `native_connection_` is open at the server. -/
structure DBConnection where
  refCount : Int
  connectionPool : Option PoolId
  recyclable : Bool
  deleted : Nat
  nativeOpen : Bool
  deriving DecidableEq, Repr

/-- The constructors of `MysqlConnection` and `DBConnection`: a native handle, no
reference yet, no pool, `recyclable_(0)`. -/
def DBConnection.new : DBConnection := ⟨0,none,false,0,true⟩

/-- `clients` counts the references that sessions, statements and results hold;
`task` is the call a thread is in, with its argument and the time it has read. -/
structure ConnectionHeap where
  conns : ConnId → DBConnection
  next : Nat
  clients : ConnId → Nat
  pools : PoolId → Option ConnectionPool
  task : ThreadId → Option (PoolId × Call)

def ConnectionHeap.init : ConnectionHeap :=
  ⟨fun _ => ⟨0,none,false,0,false⟩,0,fun _ => 0,fun _ => none,fun _ => none⟩

def ConnectionHeap.modify (s : ConnectionHeap) (c : ConnId) (f : DBConnection → DBConnection) :
    ConnectionHeap := { s with conns := Function.update s.conns c (f (s.conns c)) }

def ConnectionHeap.addRef (s : ConnectionHeap) (c : ConnId) : ConnectionHeap :=
  s.modify c (fun o => { o with refCount := o.refCount+1 })

/-- `delete self`; `~MysqlConnection() {}` leaves the native handle as it is. -/
def ConnectionHeap.delete (s : ConnectionHeap) (c : ConnId) : ConnectionHeap :=
  s.modify c (fun o => { o with deleted := o.deleted+1 })

def ConnectionHeap.construct (s : ConnectionHeap) : ConnectionHeap × ConnId :=
  ({ s with conns := Function.update s.conns s.next DBConnection.new, next := s.next+1 },s.next)

def ConnectionHeap.hold (s : ConnectionHeap) (c : ConnId) : ConnectionHeap :=
  { s with clients := Function.update s.clients c (s.clients c+1) }

def ConnectionHeap.drop (s : ConnectionHeap) (c : ConnId) : ConnectionHeap :=
  { s with clients := Function.update s.clients c (s.clients c-1) }

def ConnectionHeap.connect (s : ConnectionHeap) : ConnectionHeap :=
  let (s,c) := s.construct
  (s.addRef c).hold c

/-- `DBConnection::Dispose`, with the pool whose `Put` it goes on to call, if any. -/
def ConnectionHeap.dispose (s : ConnectionHeap) (self : ConnId) :
    ConnectionHeap × Option PoolId :=
  let pool := (s.conns self).connectionPool
  let s := s.modify self (fun o => { o with connectionPool := none })
  match pool with
  | some p => if (s.conns self).recyclable then (s,some p) else (s.delete self,none)
  | none => (s.delete self,none)

/-- `Release`, which disposes of the connection when the count reaches zero. -/
def ConnectionHeap.release (s : ConnectionHeap) (c : ConnId) : ConnectionHeap × Option PoolId :=
  let s := s.modify c (fun o => { o with refCount := o.refCount-1 })
  if (s.conns c).refCount = 0 then s.dispose c else (s,none)

/-- The end of a list of entries: each drops its reference. `none` would be a
connection that goes into a pool again from there. -/
def ConnectionHeap.discard (s : ConnectionHeap) : List Entry → Option ConnectionHeap
  | [] => some s
  | e :: garbage =>
    match s.release e.dbConnection with
    | (s,none) => s.discard garbage
    | (_,some _) => none

def ConnectionHeap.start (s : ConnectionHeap) (thread : ThreadId) (p : PoolId) (call : Call) :
    ConnectionHeap := { s with task := Function.update s.task thread (some (p,call)) }

/-- `ConnectionPool::Put` up to the lock; without a limit the `unique_ptr` deletes. -/
def ConnectionHeap.put (s : ConnectionHeap) (thread : ThreadId) (p : PoolId)
    (connection : Option ConnId) (now : Int) : Option ConnectionHeap :=
  (s.pools p).map (fun pool =>
    if pool.limit = 0 then
      match connection with
      | some c => s.delete c
      | none => s
    else s.start thread p (.put connection now))

def ConnectionHeap.open (s : ConnectionHeap) (thread : ThreadId) (p : PoolId) (now : Int) :
    Option ConnectionHeap :=
  (s.pools p).map (fun pool =>
    if pool.limit = 0 then s.connect else s.start thread p (.get now))

/-- The rest of `Open` after `get`: the connection taken or a new one, with its
pool, is handed to the caller. -/
def ConnectionHeap.serve (s : ConnectionHeap) (p : PoolId) (taken : Option Entry) :
    ConnectionHeap :=
  let (s,c) := match taken with
    | some e => (s,e.dbConnection)
    | none =>
      let (s,c) := s.construct
      (s.addRef c,c)
  (s.modify c (fun o => { o with connectionPool := some p })).hold c

/-- `Open` goes on to hand out a connection; the other calls are over. -/
def ConnectionHeap.finish (s : ConnectionHeap) (p : PoolId) (taken : Option Entry) :
    Call → ConnectionHeap
  | .get _ => s.serve p taken
  | _ => s

def ConnectionHeap.addRefs (s : ConnectionHeap) (entries : List Entry) : ConnectionHeap :=
  entries.foldl (fun s e => s.addRef e.dbConnection) s

def ConnectionHeap.unlock (s : ConnectionHeap) (thread : ThreadId) (p : PoolId)
    (pool : ConnectionPool) : ConnectionHeap :=
  { s with
    pools := Function.update s.pools p (some pool)
    task := Function.update s.task thread none }

def ConnectionHeap.enter (s : ConnectionHeap) (thread : ThreadId) : Option ConnectionHeap := do
  let (p,call) ← s.task thread
  let pool ← s.pools p
  let r ← pool.locked call
  let s ← ((s.unlock thread p r.pool).addRefs call.pushed).discard r.garbage
  pure (s.finish p r.taken call)

/-- How an operation under a `DBConnectionThrowGuard` went: whether it threw, whether it
had dismissed the guard by `Done`, and whether its thread was being unwound for another
exception all the while, as in the `ROLLBACK` of `~Transaction`. -/
structure GuardedOperation where
  threw : Bool
  done : Bool
  unwinding : Bool
  deriving DecidableEq, Repr

/-- `std::uncaught_exception()` in the destructor of the guard: it cannot tell whose
exception it is. -/
def GuardedOperation.uncaughtException (o : GuardedOperation) : Bool := o.threw || o.unwinding

def GuardedOperation.clears (o : GuardedOperation) : Bool := !o.done && o.uncaughtException

/-- `release`, `open`, `put`, `gc` and `clear` bring a thread to the lock of a pool and
carry the time it reads on the way; `enter` is its turn. `put` gives a pool a
connection no one else refers to, as `Put` demands of its callers. `destroy` is the end
of a pool, at any time: the references to pools are not counted. -/
inductive PoolAct where
  | create : PoolId → ConnectionInfo → Int → Int → PoolAct
  | destroy : PoolId → PoolAct
  | connect : PoolAct
  | addRef : ConnId → PoolAct
  | operation : ConnId → GuardedOperation → PoolAct
  | setRecyclable : ConnId → Bool → PoolAct
  | release : ThreadId → ConnId → Int → PoolAct
  | open : ThreadId → PoolId → Int → PoolAct
  | put : ThreadId → PoolId → Int → PoolAct
  | gc : ThreadId → PoolId → Int → PoolAct
  | clear : ThreadId → PoolId → PoolAct
  | enter : ThreadId → PoolAct
  deriving DecidableEq, Repr

def PoolAct.caller : PoolAct → Option ThreadId
  | .release thread _ _ | .open thread _ _ | .put thread _ _ | .gc thread _ _
  | .clear thread _ => some thread
  | _ => none

/-- The connection a client must hold a reference to for the step. -/
def PoolAct.subject : PoolAct → Option ConnId
  | .addRef c | .operation c _ | .setRecyclable c _ | .release _ c _ => some c
  | _ => none

/-- Callers are in no other call, and clients use only what they hold. -/
def ConnectionHeap.allows (s : ConnectionHeap) (a : PoolAct) : Bool :=
  (a.caller.all (fun thread => (s.task thread).isNone)) &&
    (a.subject.all (fun c => s.clients c ≠ 0))

/-- `~DBConnectionThrowGuard`. -/
def ConnectionHeap.throwGuard (s : ConnectionHeap) (c : ConnId) (o : GuardedOperation) :
    ConnectionHeap :=
  if o.clears then s.modify c (fun d => { d with recyclable := false }) else s

def ConnectionHeap.act (s : ConnectionHeap) : PoolAct → Option ConnectionHeap
  | .create p info rawSize rawIdle =>
    if (s.pools p).isSome then none
    else some { s with
      pools := Function.update s.pools p (some (ConnectionPool.create info rawSize rawIdle)) }
  | .destroy p => do
    let pool ← s.pools p
    { s with pools := Function.update s.pools p none }.discard pool.connectionPool
  | .connect => some s.connect
  | .addRef c => some ((s.addRef c).hold c)
  | .operation c o => some (s.throwGuard c o)
  | .setRecyclable c v => some (s.modify c (fun o => { o with recyclable := v }))
  | .release thread c now =>
    match (s.drop c).release c with
    | (s,none) => some s
    | (s,some p) => s.put thread p (some c) now
  | .open thread p now => s.open thread p now
  | .put thread p now =>
    let (s,c) := s.construct
    s.put thread p (some c) now
  | .gc thread p now => s.put thread p none now
  | .clear thread p => (s.pools p).map (fun _ => s.start thread p .clear)
  | .enter thread => s.enter thread

def ConnectionHeap.step (s : ConnectionHeap) (a : PoolAct) : Option ConnectionHeap :=
  if s.allows a then s.act a else none

def poolSystem : System ConnectionHeap PoolAct := ⟨.init,ConnectionHeap.step⟩

/-- What each step asks for and does. -/
inductive ConnectionHeap.StepTo (s : ConnectionHeap) : PoolAct → ConnectionHeap → Prop where
  | create {p : PoolId} (info : ConnectionInfo) (rawSize rawIdle : Int)
      (hnew : s.pools p = none) : StepTo s (.create p info rawSize rawIdle) { s with
        pools := Function.update s.pools p (some (ConnectionPool.create info rawSize rawIdle)) }
  | destroy {p : PoolId} {pool : ConnectionPool} {t : ConnectionHeap}
      (hpool : s.pools p = some pool)
      (hdiscard : { s with pools := Function.update s.pools p none }.discard
        pool.connectionPool = some t) : StepTo s (.destroy p) t
  | connect : StepTo s .connect s.connect
  | addRef {c : ConnId} (hheld : s.clients c ≠ 0) : StepTo s (.addRef c) ((s.addRef c).hold c)
  | operation {c : ConnId} (o : GuardedOperation) (hheld : s.clients c ≠ 0) :
      StepTo s (.operation c o) (s.throwGuard c o)
  | setRecyclable {c : ConnId} (v : Bool) (hheld : s.clients c ≠ 0) :
      StepTo s (.setRecyclable c v) (s.modify c (fun o => { o with recyclable := v }))
  | release {thread : ThreadId} {c : ConnId} {now : Int} {t : ConnectionHeap}
      (hfree : s.task thread = none) (hheld : s.clients c ≠ 0)
      (hrelease : s.act (.release thread c now) = some t) : StepTo s (.release thread c now) t
  | openUnpooled {thread : ThreadId} {p : PoolId} {pool : ConnectionPool} (now : Int)
      (hfree : s.task thread = none) (hpool : s.pools p = some pool) (hl : pool.limit = 0) :
      StepTo s (.open thread p now) s.connect
  | openPooled {thread : ThreadId} {p : PoolId} {pool : ConnectionPool} (now : Int)
      (hfree : s.task thread = none) (hpool : s.pools p = some pool) (hl : pool.limit ≠ 0) :
      StepTo s (.open thread p now) (s.start thread p (.get now))
  | put {thread : ThreadId} {p : PoolId} {now : Int} {t : ConnectionHeap}
      (hfree : s.task thread = none)
      (hput : s.construct.1.put thread p (some s.next) now = some t) :
      StepTo s (.put thread p now) t
  | gc {thread : ThreadId} {p : PoolId} {now : Int} {t : ConnectionHeap}
      (hfree : s.task thread = none) (hput : s.put thread p none now = some t) :
      StepTo s (.gc thread p now) t
  | clear {thread : ThreadId} {p : PoolId} {pool : ConnectionPool}
      (hfree : s.task thread = none) (hpool : s.pools p = some pool) :
      StepTo s (.clear thread p) (s.start thread p .clear)
  | enter {thread : ThreadId} {t : ConnectionHeap} (henter : s.enter thread = some t) :
      StepTo s (.enter thread) t

theorem pool_step_to {s t : ConnectionHeap} {a : PoolAct} (h : s.step a = some t) :
    s.StepTo a t := by
  simp only [ConnectionHeap.step,Option.ite_none_right_eq_some] at h
  obtain ⟨hallows,h⟩ := h
  simp only [ConnectionHeap.allows,Bool.and_eq_true] at hallows
  obtain ⟨hcaller,hsubject⟩ := hallows
  cases a with
  | create p info rawSize rawIdle =>
    simp only [ConnectionHeap.act,Option.ite_none_left_eq_some,Option.some.injEq] at h
    obtain ⟨hnew,rfl⟩ := h
    exact .create info rawSize rawIdle (by simpa using hnew)
  | destroy p =>
    simp only [ConnectionHeap.act,Option.bind_eq_bind,Option.bind_eq_some_iff] at h
    obtain ⟨pool,hpool,hdiscard⟩ := h
    exact .destroy hpool hdiscard
  | connect => exact Option.some.inj h ▸ .connect
  | addRef c =>
    exact Option.some.inj h ▸ .addRef (by simpa [PoolAct.subject] using hsubject)
  | operation c o =>
    exact Option.some.inj h ▸ .operation o (by simpa [PoolAct.subject] using hsubject)
  | setRecyclable c v =>
    exact Option.some.inj h ▸ .setRecyclable v (by simpa [PoolAct.subject] using hsubject)
  | release thread c now =>
    exact .release (by simpa [PoolAct.caller] using hcaller)
      (by simpa [PoolAct.subject] using hsubject) h
  | «open» thread p now =>
    have hfree : s.task thread = none := by simpa [PoolAct.caller] using hcaller
    simp only [ConnectionHeap.act,ConnectionHeap.open,Option.map_eq_some_iff] at h
    obtain ⟨pool,hpool,rfl⟩ := h
    split
    case isTrue hl => exact .openUnpooled now hfree hpool hl
    case isFalse hl => exact .openPooled now hfree hpool hl
  | put thread p now => exact .put (by simpa [PoolAct.caller] using hcaller) h
  | gc thread p now => exact .gc (by simpa [PoolAct.caller] using hcaller) h
  | clear thread p =>
    simp only [ConnectionHeap.act,Option.map_eq_some_iff] at h
    obtain ⟨pool,hpool,rfl⟩ := h
    exact .clear (by simpa [PoolAct.caller] using hcaller) hpool
  | enter thread => exact .enter h

structure ConnectionHeap.Frame (s t : ConnectionHeap) : Prop where
  next : t.next = s.next
  clients : t.clients = s.clients
  pools : t.pools = s.pools
  task : t.task = s.task

theorem ConnectionHeap.Frame.refl (s : ConnectionHeap) : s.Frame s := ⟨rfl,rfl,rfl,rfl⟩

theorem ConnectionHeap.Frame.trans {s t u : ConnectionHeap} (h : s.Frame t) (h' : t.Frame u) :
    s.Frame u where
  next := h'.next.trans h.next
  clients := h'.clients.trans h.clients
  pools := h'.pools.trans h.pools
  task := h'.task.trans h.task

theorem modify_frame (s : ConnectionHeap) (c : ConnId) (f : DBConnection → DBConnection) :
    s.Frame (s.modify c f) := ⟨rfl,rfl,rfl,rfl⟩

theorem addRef_frame (s : ConnectionHeap) (c : ConnId) : s.Frame (s.addRef c) :=
  modify_frame s c _

theorem delete_frame (s : ConnectionHeap) (c : ConnId) : s.Frame (s.delete c) :=
  modify_frame s c _

theorem throwGuard_frame (s : ConnectionHeap) (c : ConnId) (o : GuardedOperation) :
    s.Frame (s.throwGuard c o) := by
  by_cases hg : o.clears = true
  · rw [ConnectionHeap.throwGuard,if_pos hg]
    exact modify_frame s c _
  · rw [ConnectionHeap.throwGuard,if_neg hg]
    exact .refl s

theorem dispose_frame (s : ConnectionHeap) (c : ConnId) : s.Frame (s.dispose c).1 := by
  simp only [ConnectionHeap.dispose]
  cases (s.conns c).connectionPool with
  | none => exact (modify_frame s c _).trans (delete_frame _ c)
  | some p =>
    by_cases hr : ((s.modify c (fun o => { o with connectionPool := none })).conns c).recyclable
    · simp only [hr,if_true]
      exact modify_frame s c _
    · simp only [hr]
      exact (modify_frame s c _).trans (delete_frame _ c)

theorem release_frame (s : ConnectionHeap) (c : ConnId) : s.Frame (s.release c).1 := by
  have hm := modify_frame s c (fun o => { o with refCount := o.refCount-1 })
  simp only [ConnectionHeap.release]
  split
  · exact hm.trans (dispose_frame _ c)
  · exact hm

theorem discard_frame {s t : ConnectionHeap} {garbage : List Entry}
    (h : s.discard garbage = some t) : s.Frame t := by
  induction garbage generalizing s with
  | nil =>
    simp only [ConnectionHeap.discard,Option.some.injEq] at h
    subst t
    exact .refl s
  | cons e garbage ih =>
    have hf := release_frame s e.dbConnection
    simp only [ConnectionHeap.discard] at h
    cases hr : s.release e.dbConnection with
    | mk u pool =>
      rw [hr] at h hf
      cases pool with
      | none => exact hf.trans (ih h)
      | some p => cases h

theorem addRefs_frame (s : ConnectionHeap) (entries : List Entry) :
    s.Frame (s.addRefs entries) := by
  induction entries generalizing s with
  | nil => exact .refl s
  | cons e entries ih => exact (addRef_frame s _).trans (ih _)

@[simp] theorem serve_pools (s : ConnectionHeap) (p : PoolId) (taken : Option Entry) :
    (s.serve p taken).pools = s.pools := by cases taken <;> rfl

@[simp] theorem finish_pools (s : ConnectionHeap) (p : PoolId) (taken : Option Entry)
    (call : Call) : (s.finish p taken call).pools = s.pools := by
  cases call <;> simp [ConnectionHeap.finish]

/-- The two heaps differ in connection objects and in calls begun. -/
structure ConnectionHeap.Approach (s t : ConnectionHeap) : Prop where
  next : t.next = s.next
  clients : t.clients = s.clients
  pools : t.pools = s.pools

theorem ConnectionHeap.Frame.approach {s t : ConnectionHeap} (h : s.Frame t) : s.Approach t :=
  ⟨h.next,h.clients,h.pools⟩

/-- `Put` does nothing, deletes the connection, or goes on to the lock. -/
theorem put_cases {s t : ConnectionHeap} {thread : ThreadId} {p : PoolId}
    {connection : Option ConnId} {now : Int} (h : s.put thread p connection now = some t) :
    (connection = none ∧ t = s) ∨ (∃ c, connection = some c ∧ t = s.delete c) ∨
      t = s.start thread p (.put connection now) := by
  simp only [ConnectionHeap.put,Option.map_eq_some_iff] at h
  obtain ⟨pool,-,rfl⟩ := h
  by_cases hl : pool.limit = 0
  · rw [if_pos hl]
    cases connection with
    | none => exact .inl ⟨rfl,rfl⟩
    | some c => exact .inr (.inl ⟨c,rfl,rfl⟩)
  · rw [if_neg hl]
    exact .inr (.inr rfl)

theorem put_approach {s t : ConnectionHeap} {thread : ThreadId} {p : PoolId}
    {connection : Option ConnId} {now : Int} (h : s.put thread p connection now = some t) :
    s.Approach t := by
  obtain ⟨-,rfl⟩ | ⟨c,-,rfl⟩ | rfl := put_cases h
  · exact ⟨rfl,rfl,rfl⟩
  · exact (delete_frame s c).approach
  · exact ⟨rfl,rfl,rfl⟩

theorem release_approach {s t : ConnectionHeap} {thread : ThreadId} {c : ConnId} {now : Int}
    (h : s.act (.release thread c now) = some t) : (s.drop c).Approach t := by
  have hf := (release_frame (s.drop c) c).approach
  simp only [ConnectionHeap.act] at h
  cases hr : (s.drop c).release c with
  | mk u pool =>
    rw [hr] at h hf
    cases pool with
    | none =>
      simp only [Option.some.injEq] at h
      exact h ▸ hf
    | some q =>
      have hput := put_approach h
      exact ⟨hput.next.trans hf.next,hput.clients.trans hf.clients,hput.pools.trans hf.pools⟩

theorem enter_eq_some {s t : ConnectionHeap} {thread : ThreadId}
    (h : s.enter thread = some t) :
    ∃ p call pool r u, s.task thread = some (p,call) ∧ s.pools p = some pool ∧
      pool.locked call = some r ∧
      ((s.unlock thread p r.pool).addRefs call.pushed).discard r.garbage = some u ∧
      t = u.finish p r.taken call := by
  simp only [ConnectionHeap.enter,Option.bind_eq_bind,Option.bind_eq_some_iff,Prod.exists,
    Option.pure_def,Option.some.injEq] at h
  obtain ⟨p,call,htask,pool,hpool,r,hr,u,hu,ht⟩ := h
  exact ⟨p,call,pool,r,u,htask,hpool,hr,hu,ht.symm⟩

/-- What a step can do to pools: make a new one, end one, or run the critical
section of a call on one. -/
theorem step_pools {s t : ConnectionHeap} {a : PoolAct} (h : s.step a = some t)
    {p : PoolId} {pool' : ConnectionPool} (hp : t.pools p = some pool') :
    s.pools p = some pool' ∨
    (∃ info rawSize rawIdle, a = .create p info rawSize rawIdle ∧
      pool' = ConnectionPool.create info rawSize rawIdle) ∨
    ∃ thread call pool r, a = .enter thread ∧ s.task thread = some (p,call) ∧
      s.pools p = some pool ∧ pool.locked call = some r ∧ pool' = r.pool := by
  cases pool_step_to h with
  | @create q info rawSize rawIdle hnew =>
    by_cases hq : p = q
    · subst p
      simp only [Function.update_self,Option.some.injEq] at hp
      exact Or.inr (Or.inl ⟨info,rawSize,rawIdle,rfl,hp.symm⟩)
    · simp only [Function.update_of_ne hq] at hp
      exact Or.inl hp
  | @destroy q _ _ _ hdiscard =>
    rw [(discard_frame hdiscard).pools] at hp
    by_cases hq : p = q
    · subst p
      simp at hp
    · simp only [Function.update_of_ne hq] at hp
      exact Or.inl hp
  | connect | addRef | setRecyclable | openUnpooled | openPooled | clear => exact Or.inl hp
  | operation o =>
    rw [(throwGuard_frame s _ o).pools] at hp
    exact Or.inl hp
  | release _ _ hrelease =>
    rw [(release_approach hrelease).pools] at hp
    exact Or.inl hp
  | put _ hput | gc _ hput =>
    rw [(put_approach hput).pools] at hp
    exact Or.inl hp
  | @enter thread _ henter =>
    obtain ⟨q,call,pool,r,u,htask,hpool,hr,hu,rfl⟩ := enter_eq_some henter
    rw [finish_pools,((addRefs_frame _ _).trans (discard_frame hu)).pools,
      ConnectionHeap.unlock] at hp
    by_cases hq : p = q
    · subst p
      simp only [Function.update_self,Option.some.injEq] at hp
      exact Or.inr (Or.inr ⟨thread,call,pool,r,rfl,htask,hpool,hr,hp.symm⟩)
    · simp only [Function.update_of_ne hq] at hp
      exact Or.inl hp

end MprMq.Db
