import MprMq.Db.ConnectionFlags
import MprMq.Db.PoolOwnership
set_option autoImplicit false

/-! Recycling: what becomes of a connection at the end of a checkout. A checkout is
remembered beside the run, from the time `Open` hands the connection out. -/

namespace MprMq.Db
open MprMq.Lib

/-- What a connection went through since it was last handed out: by the `Open` of a
pool or not, an operation that threw under its guard, an operation that went well while
its thread was being unwound for another exception, a call of `set_recyclable`; and how
its `recyclable_` stood at the beginning. -/
structure Checkout where
  opened : Bool
  threw : Bool
  unwound : Bool
  setCalled : Bool
  recyclableAtOpen : Bool
  deriving DecidableEq, Repr

def Checkout.none : Checkout := ⟨false,false,false,false,false⟩

def Checkout.noteOperation (checkout : Checkout) (o : GuardedOperation) : Checkout :=
  if o.done then checkout
  else if o.threw then { checkout with threw := true }
  else if o.unwinding then { checkout with unwound := true }
  else checkout

def Checkout.note (c : ConnId) (checkout : Checkout) : PoolAct → Checkout
  | .operation d o => if d = c then checkout.noteOperation o else checkout
  | .setRecyclable d _ => if d = c then { checkout with setCalled := true } else checkout
  | _ => checkout

def Checkout.see (history : ConnId → Checkout) (s : ConnectionHeap) (a : PoolAct)
    (t : ConnectionHeap) (c : ConnId) : Checkout :=
  if s.clients c = 0 ∧ t.clients c ≠ 0 then
    ⟨(t.conns c).connectionPool.isSome,false,false,false,(t.conns c).recyclable⟩
  else (history c).note c a

def checkoutSystem : System (ConnectionHeap × (ConnId → Checkout)) PoolAct :=
  poolSystem.watch (fun _ => Checkout.none) Checkout.see

abbrev Watched := ConnectionHeap × (ConnId → Checkout)

def Watched.plain (w : Watched) (c : ConnId) : Prop :=
  (w.2 c).opened = true ∧ (w.2 c).setCalled = false

def EndsCheckout (w : Watched) (a : PoolAct) (thread : ThreadId) (c : ConnId) (now : Int)
    (p : PoolId) : Prop :=
  a = .release thread c now ∧ w.1.clients c = 1 ∧ w.plain c ∧
    (w.1.conns c).connectionPool = some p ∧ ∃ pool, w.1.pools p = some pool ∧ pool.limit ≠ 0

/-- The step is the critical section of the `Put` after such a checkout. -/
def TakesBack (w : Watched) (a : PoolAct) (thread : ThreadId) (c : ConnId) (now : Int)
    (p : PoolId) (pool : ConnectionPool) : Prop :=
  a = .enter thread ∧ w.1.task thread = some (p,.put (some c) now) ∧ w.plain c ∧
    w.1.pools p = some pool ∧ pool.limit ≠ 0

/-- `Open` by any thread, with no other step in between and within the life time, is
served by the connection and makes no new one. -/
def ServedNext (t : ConnectionHeap) (c : ConnId) (now : Int) (p : PoolId)
    (pool : ConnectionPool) : Prop :=
  ∀ thread now', t.task thread = none → now' ≤ now + pool.lifeTime →
    ∃ u, poolSystem.runFrom t [.open thread p now',.enter thread] = some u ∧
      u.next = t.next ∧ u.clients c = 1

/-- At the end of a checkout the connection goes to `Put` if nothing threw and is
destroyed if something did; and `Put` leaves it in the idle list, for the next `Open`. -/
def Recycles (w : Watched) (a : PoolAct) (t : ConnectionHeap) : Prop :=
  (∀ thread c now p, EndsCheckout w a thread c now p →
    if (w.2 c).threw then t.task thread = none ∧ (t.conns c).deleted = 1
    else t.task thread = some (p,.put (some c) now) ∧ (t.conns c).deleted = 0) ∧
  ∀ thread c now p pool, TakesBack w a thread c now p pool →
    c ∈ t.idle p ∧ ServedNext t c now p pool

/-- An operation threw, or `recyclable_` stood when the connection was handed out and no
other exception was about when an operation ended; and the life time of the pool is not
negative. -/
def Recyclable (w : Watched) (a : PoolAct) : Prop :=
  (∀ thread c now p, EndsCheckout w a thread c now p →
    (w.2 c).threw = true ∨ (w.2 c).recyclableAtOpen = true ∧ (w.2 c).unwound = false) ∧
  ∀ thread c now p pool, TakesBack w a thread c now p pool → 0 ≤ pool.lifeTime

/-- What the flag comes to, when nobody sets it by hand. -/
def Checkout.stands (checkout : Checkout) : Bool :=
  checkout.recyclableAtOpen && !checkout.threw && !checkout.unwound

theorem stands_iff {checkout : Checkout} : checkout.stands = true ↔
    checkout.recyclableAtOpen = true ∧ checkout.threw = false ∧ checkout.unwound = false := by
  simp [Checkout.stands,and_assoc]

theorem noteOperation_set (checkout : Checkout) (o : GuardedOperation) :
    (checkout.noteOperation o).setCalled = checkout.setCalled := by
  obtain ⟨threw,done,unwinding⟩ := o
  cases done <;> cases threw <;> cases unwinding <;> rfl

theorem noteOperation_stands (checkout : Checkout) (o : GuardedOperation) :
    (checkout.noteOperation o).stands = if o.clears then false else checkout.stands := by
  obtain ⟨threw,done,unwinding⟩ := o
  cases done <;> cases threw <;> cases unwinding <;>
    simp [Checkout.noteOperation,Checkout.stands,GuardedOperation.clears,
      GuardedOperation.uncaughtException]

theorem flag_note {c : ConnId} {checkout : Checkout} {a : PoolAct}
    (h : (checkout.note c a).setCalled = false) :
    checkout.setCalled = false ∧ a.flag c checkout.stands = (checkout.note c a).stands := by
  cases a with
  | operation d o =>
    by_cases hd : d = c
    · simp only [Checkout.note,if_pos hd,noteOperation_set] at h
      subst d
      simp only [Checkout.note,PoolAct.flag,if_true,noteOperation_stands,true_and]
      exact ⟨h,trivial⟩
    · simp only [Checkout.note,if_neg hd] at h
      simp only [Checkout.note,PoolAct.flag,hd,false_and,if_false,and_true]
      exact h
  | setRecyclable d v =>
    by_cases hd : d = c
    · simp [Checkout.note,hd] at h
    · simp only [Checkout.note,if_neg hd] at h
      simp only [Checkout.note,PoolAct.flag,if_neg hd,and_true]
      exact h
  | create | destroy | connect | addRef | release | «open» | put | gc | clear | enter =>
    exact ⟨h,rfl⟩

/-- Pools that keep nothing are empty, and the flag of a connection in the hands of
clients stands if it did at the beginning and no exception came past an operation. -/
structure Watched.Inv (w : Watched) : Prop where
  heap : w.1.Inv
  empty : ∀ p pool, w.1.pools p = some pool → pool.lifeTime < 0 → pool.connectionPool = []
  flag : ∀ c, w.1.clients c ≠ 0 → (w.2 c).setCalled = false →
    (w.1.conns c).recyclable = (w.2 c).stands

theorem watched_inductive : checkoutSystem.Inductive Watched.Inv where
  init := ⟨inv_inductive.init,(fun _ _ hp => nomatch hp),fun _ hc => absurd rfl hc⟩
  step := by
    intro w a w' h hs
    obtain ⟨hstep,hhist⟩ := System.watch_step hs
    have hinv := inv_inductive.step w.1 a w'.1 h.heap hstep
    refine ⟨hinv,?_,?_⟩
    · intro p pool' hp hlife
      rcases step_pools hstep hp with hsame | ⟨info,rawSize,rawIdle,-,rfl⟩ |
        ⟨thread,call,pool,r,-,-,hpool,hr,rfl⟩
      · exact h.empty p pool' hsame hlife
      · rfl
      · have hsized := h.heap.sized p pool hpool
        rw [(spec_of_locked hsized hr).lifeTime] at hlife
        exact locked_empty hsized hlife (h.empty p pool hpool hlife) hr
    · intro c hc hset
      rw [hhist] at hset ⊢
      by_cases hheld : w.1.clients c = 0
      · simp [Checkout.see,Checkout.stands,hheld,hc]
      · have hnot : ¬ (w.1.clients c = 0 ∧ w'.1.clients c ≠ 0) := fun h => hheld h.1
        simp only [Checkout.see,if_neg hnot] at hset ⊢
        obtain ⟨hset',hflag⟩ := flag_note hset
        obtain ⟨place,hplace⟩ := h.heap.owned c
        have hne : c ≠ w.1.next := by
          rintro rfl
          have habs := hplace.eq_absent
          rw [hplace.eq_held hheld] at habs
          cases habs
        rw [(step_keeps hstep).recyclable c hne,h.flag c hheld hset']
        exact hflag

theorem release_outcome {s t : ConnectionHeap} (h : s.Inv) {thread : ThreadId} {c : ConnId}
    {now : Int} {p : PoolId} {pool : ConnectionPool}
    (hs : s.step (.release thread c now) = some t) (hlast : s.clients c = 1)
    (hcp : (s.conns c).connectionPool = some p) (hpool : s.pools p = some pool)
    (hlimit : pool.limit ≠ 0) :
    if (s.conns c).recyclable then
      t.task thread = some (p,.put (some c) now) ∧ (t.conns c).deleted = 0
    else t.task thread = none ∧ (t.conns c).deleted = 1 := by
  obtain ⟨place,hat⟩ := h.owned c
  have hplace := hat.eq_held (by omega)
  subst place
  have hrefs : ((s.drop c).conns c).refCount = 1 := by
    have := hat.refCount
    simp only [Place.refs,hlast] at this
    simpa [ConnectionHeap.drop] using this
  have hdeleted : (s.conns c).deleted = 0 := by simpa using hat.deleted
  simp only [ConnectionHeap.step,Option.ite_none_right_eq_some,ConnectionHeap.allows,
    PoolAct.caller,Option.all_some,Bool.and_eq_true,Option.isNone_iff_eq_none] at hs
  obtain ⟨⟨hfree,-⟩,hs⟩ := hs
  have hcp' : ((s.drop c).conns c).connectionPool = some p := hcp
  simp only [ConnectionHeap.act,release_last hrefs,hcp'] at hs
  by_cases hr : (s.conns c).recyclable = true
  · have hr' : ((s.drop c).conns c).recyclable = true := hr
    have hpool' : ((s.drop c).modify c DBConnection.returned).pools p = some pool := hpool
    rw [if_pos hr]
    simp only [hr',if_true,ConnectionHeap.put,hpool',Option.map_some,if_neg hlimit,
      Option.some.injEq] at hs
    subst t
    refine ⟨by simp [ConnectionHeap.start],?_⟩
    simpa [ConnectionHeap.start,DBConnection.returned,ConnectionHeap.drop] using hdeleted
  · have hr' : ¬ ((s.drop c).conns c).recyclable = true := hr
    rw [if_neg hr]
    rw [if_neg hr'] at hs
    simp only [Option.some.injEq] at hs
    subst t
    refine ⟨hfree,?_⟩
    simp [DBConnection.disposed,ConnectionHeap.drop,hdeleted]

theorem enter_pools {s t : ConnectionHeap} {thread : ThreadId} {p : PoolId} {call : Call}
    {pool : ConnectionPool} {r : Section} (hs : s.enter thread = some t)
    (htask : s.task thread = some (p,call)) (hpool : s.pools p = some pool)
    (hr : pool.locked call = some r) : t.pools p = some r.pool := by
  obtain ⟨q,call',pool',r',u,htask',hpool',hr',hu,rfl⟩ := enter_eq_some hs
  rw [htask,Option.some.injEq,Prod.mk.injEq] at htask'
  obtain ⟨rfl,rfl⟩ := htask'
  rw [hpool,Option.some.injEq] at hpool'
  subst pool'
  rw [hr,Option.some.injEq] at hr'
  subst r'
  rw [finish_pools,((addRefs_frame _ _).trans (discard_frame hu)).pools]
  simp [ConnectionHeap.unlock]

theorem served_next {t : ConnectionHeap} (h : t.Inv) {c : ConnId} {now : Int} {p : PoolId}
    {pool : ConnectionPool} (hpool : t.pools p = some pool) (hlimit : pool.limit ≠ 0)
    (hback : pool.connectionPool.getLast? = some ⟨c,now⟩) : ServedNext t c now p pool := by
  intro thread now' hfree hle
  have hopen : t.step (.open thread p now') = some (t.start thread p (.get now')) := by
    simp [ConnectionHeap.step,ConnectionHeap.allows,PoolAct.caller,PoolAct.subject,
      ConnectionHeap.act,ConnectionHeap.open,hfree,hpool,hlimit]
  have htask : (t.start thread p (.get now')).task thread = some (p,.get now') := by
    simp [ConnectionHeap.start]
  have howned : (t.start thread p (.get now')).Owned 0 [] := h.owned.start hfree (by simp)
  obtain ⟨u,hu,-⟩ := enter_owned howned.anyPool (h.sized p pool hpool) htask hpool
  have henter : (t.start thread p (.get now')).step (.enter thread) = some u := by
    simpa [ConnectionHeap.step,ConnectionHeap.allows,PoolAct.caller,PoolAct.subject,
      ConnectionHeap.act] using hu
  have hzero : t.clients c = 0 := by
    obtain ⟨place,hat⟩ := h.owned c
    have hmem : c ∈ t.idle p := by
      rw [idle_eq hpool]
      exact List.mem_map_of_mem (f := Entry.dbConnection) (List.mem_of_getLast? hback)
    exact hat.clients_eq_zero (by simp [hat.mem_idle.mp hmem])
  have htaken : (pool.get now').taken = some ⟨c,now⟩ := by
    have hsplit := List.dropLast_append_getLast? (⟨c,now⟩ : Entry) hback
    rw [get_eq (h.sized p pool hpool)]
    dsimp only
    rw [← hsplit,fresh_append pool _ _ _ (by dsimp only; omega)]
    simp
  refine ⟨u,by simp only [System.runFrom,poolSystem,hopen,henter],?_⟩
  obtain ⟨q,call,pool',r,v,htask',hpool',hr,hv,rfl⟩ := enter_eq_some hu
  rw [htask,Option.some.injEq,Prod.mk.injEq] at htask'
  obtain ⟨rfl,rfl⟩ := htask'
  have hpool'' : t.pools p = some pool' := hpool'
  rw [hpool,Option.some.injEq] at hpool''
  subst pool'
  simp only [ConnectionPool.locked,Option.some.injEq] at hr
  subst r
  have hf := (addRefs_frame _ _).trans (discard_frame hv)
  have hclients : v.clients = t.clients := hf.clients
  have hnext : v.next = t.next := hf.next
  rw [htaken]
  refine ⟨hnext,?_⟩
  simp [ConnectionHeap.finish,ConnectionHeap.serve,hclients,hzero]

/-- `Put` after a checkout keeps the connection, for the next `Open`, exactly if the
pool keeps connections at all. -/
theorem takes_back_iff {w : Watched} (h : w.Inv) {t : ConnectionHeap} {thread : ThreadId}
    {c : ConnId} {now : Int} {p : PoolId} {pool : ConnectionPool}
    (hs : w.1.step (.enter thread) = some t)
    (htask : w.1.task thread = some (p,.put (some c) now)) (hpool : w.1.pools p = some pool)
    (hlimit : pool.limit ≠ 0) :
    (c ∈ t.idle p ∧ ServedNext t c now p pool) ↔ 0 ≤ pool.lifeTime := by
  have hsized := h.heap.sized p pool hpool
  obtain ⟨r,hr,hspec⟩ := locked_spec hsized (.put (some c) now)
  have hinv := inv_inductive.step w.1 (.enter thread) t h.heap hs
  simp only [ConnectionHeap.step,Option.ite_none_right_eq_some] at hs
  have hp := enter_pools hs.2 htask hpool hr
  constructor
  · rintro ⟨hidle,-⟩
    by_contra hlife
    have hnil := locked_empty hsized (by omega) (h.empty p pool hpool (by omega)) hr
    rw [idle_eq hp,hnil] at hidle
    cases hidle
  · intro hlife
    have hback := put_keeps hsized (by omega) hlife hr
    have hserved := served_next hinv hp (by rw [hspec.limit]; exact hlimit) hback
    refine ⟨?_,fun th now' hfree hle => hserved th now' hfree (by rw [hspec.lifeTime]; exact hle)⟩
    rw [idle_eq hp]
    exact List.mem_map_of_mem (f := Entry.dbConnection) (List.mem_of_getLast? hback)

theorem recycles_iff_step {w w' : Watched} {a : PoolAct} (h : w.Inv)
    (hs : checkoutSystem.step w a = some w') : Recycles w a w'.1 ↔ Recyclable w a := by
  have hstep := (System.watch_step hs).1
  refine and_congr ?_ ?_
  · refine forall_congr' (fun thread => forall_congr' (fun c => forall_congr' (fun now =>
      forall_congr' (fun p => forall_congr' (fun hends => ?_)))))
    obtain ⟨rfl,hlast,⟨-,hset⟩,hcp,pool,hpool,hlimit⟩ := hends
    have hout := release_outcome h.heap hstep hlast hcp hpool hlimit
    have hflag := h.flag c (by omega) hset
    by_cases hstands : (w.2 c).stands = true
    · obtain ⟨hopen,hthrew,hunwound⟩ := stands_iff.mp hstands
      rw [hflag,hstands] at hout
      simpa [hopen,hthrew,hunwound] using hout
    · have hclear : (w.1.conns c).recyclable = false := hflag.trans (by simpa using hstands)
      rw [stands_iff] at hstands
      rw [hclear] at hout
      simp only [Bool.false_eq_true,if_false] at hout
      cases hthrew : (w.2 c).threw with
      | true => simpa using hout
      | false => simpa [hout.1,hthrew] using hstands
  · refine forall_congr' (fun thread => forall_congr' (fun c => forall_congr' (fun now =>
      forall_congr' (fun p => forall_congr' (fun pool => forall_congr' (fun hback => ?_))))))
    obtain ⟨rfl,htask,-,hpool,hlimit⟩ := hback
    exact takes_back_iff h hstep htask hpool hlimit

/-- Connections are recycled as they should be in the runs in which every checkout that
nothing threw in begins with the flag set and meets no exception from elsewhere, and in
no others. -/
theorem recycling_iff (as : List PoolAct) :
    checkoutSystem.Along (fun w a w' => Recycles w a w'.1) as ↔
      checkoutSystem.Along (fun w a _ => Recyclable w a) as :=
  System.along_congr watched_inductive (fun _ _ _ h hs => recycles_iff_step h hs) as

theorem first_checkout_not_recycled :
    ¬ checkoutSystem.Along (fun w a w' => Recycles w a w'.1)
      ([.create 0 ⟨[("@pool_size".toList,"2".toList)],"mysql:@pool_size=2".toList,
          "mysql".toList⟩ 0 0,.open 1 0 1000000,.enter 1] ++ [PoolAct.release 1 0 2000000]) := by
  intro h
  have hr := (System.AlongFrom.after _ h rfl rfl).1 1 0 2000000 0
    ⟨rfl,rfl,⟨rfl,rfl⟩,rfl,_,rfl,by decide⟩
  revert hr
  decide

end MprMq.Db
