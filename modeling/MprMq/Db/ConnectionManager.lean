import MprMq.Db.ManagerGC
import MprMq.Db.PoolOwnership
set_option autoImplicit false

/-! `ConnectionManager`: the map from connection strings to pools, the two `Open`s
and `GC`, over the connections and pools of the whole process. -/

namespace MprMq.Db
open MprMq.Lib

/-- What a call of the manager is about to do: look up a string, look up or insert
under `info.connection_string`, call `Open` of the pool it has (null or not) for a
string, call `GC` of the pools it collected, or drop the pools it erased. -/
inductive ManagerTask where
  | idle : ManagerTask
  | finding : Text → ManagerTask
  | inserting : ConnectionInfo → ManagerTask
  | opening : Text → Option PoolId → ManagerTask
  | collected : List PoolId → ManagerTask
  | dropping : List PoolId → ManagerTask
  deriving DecidableEq, Repr

structure ConnectionManager where
  heap : ConnectionHeap
  connections : List Connection
  task : ThreadId → ManagerTask

def ConnectionManager.init : ConnectionManager := ⟨.init,[],fun _ => .idle⟩

def ConnectionManager.find (m : ConnectionManager) (key : Text) : Option PoolId :=
  (m.connections.find? (fun e => e.1 = key)).map Prod.snd

def insertConnection (key : Text) (pool : PoolId) : List Connection → List Connection
  | [] => [(key,pool)]
  | e :: rest => if key < e.1 then (key,pool) :: e :: rest else e :: insertConnection key pool rest

def containsText (pattern : Text) : Text → Bool
  | [] => pattern.isEmpty
  | c :: rest => pattern.isPrefixOf (c :: rest) || containsText pattern rest

def ConnectionManager.goTo (m : ConnectionManager) (thread : ThreadId) (task : ManagerTask) :
    ConnectionManager := { m with task := Function.update m.task thread task }

/-- `Open(const ConnectionInfo&)` up to the lock; `raw` is what `Get` finds in its
uninitialized local. -/
def ConnectionManager.openInfo (m : ConnectionManager) (thread : ThreadId)
    (info : ConnectionInfo) (raw : Int) : ConnectionManager :=
  if info.getInt raw "@pool_size".toList 0 = 0 then
    { m with heap := m.heap.connect }.goTo thread .idle
  else m.goTo thread (.inserting info)

/-- `Open(const std::string&)` up to the lock, or through `Open(info)` if the string
does not ask for a pool. -/
def ConnectionManager.openString (m : ConnectionManager) (thread : ThreadId) (str : Text)
    (raw : Int) : Option ConnectionManager :=
  if containsText "@pool_size".toList str then some (m.goTo thread (.finding str))
  else (ConnectionInfo.init str).map (fun info => m.openInfo thread info raw)

/-- The first critical section of `Open(const std::string&)` and what follows. -/
def ConnectionManager.findSection (m : ConnectionManager) (thread : ThreadId) (str : Text)
    (raw : Int) : Option ConnectionManager :=
  match m.find str with
  | some p => some (m.goTo thread (.opening str (some p)))
  | none => (ConnectionInfo.init str).map (fun info => m.openInfo thread info raw)

/-- The critical section of `Open(const ConnectionInfo&)`, with the address a new pool
gets: the local `pool` is assigned only where the pool is made. -/
def ConnectionManager.insertSection (m : ConnectionManager) (thread : ThreadId)
    (info : ConnectionInfo) (p : PoolId) (rawSize rawIdle : Int) : Option ConnectionManager :=
  match m.find info.connectionString with
  | some _ => some (m.goTo thread (.opening info.connectionString none))
  | none =>
    (m.heap.step (.create p info rawSize rawIdle)).map (fun heap =>
      { m with
        heap := heap
        connections := insertConnection info.connectionString p m.connections }.goTo thread
          (.opening info.connectionString (some p)))

/-- `openString` to `enter` are the steps of the two `Open`s, `enter` being the call
of `Open` of the pool; `collect` to `dropNext` are those of `GC`, where `sweep` is told
what refers to pools besides the map; `client` is a step of the threads outside. -/
inductive ManagerAct where
  | openString : ThreadId → Text → Int → ManagerAct
  | find : ThreadId → Int → ManagerAct
  | openInfo : ThreadId → ConnectionInfo → Int → ManagerAct
  | insert : ThreadId → PoolId → Int → Int → ManagerAct
  | enter : ThreadId → Int → ManagerAct
  | collect : ThreadId → ManagerAct
  | gcNext : ThreadId → Int → ManagerAct
  | sweep : ThreadId → List PoolId → ManagerAct
  | dropNext : ThreadId → ManagerAct
  | client : PoolAct → ManagerAct
  deriving DecidableEq, Repr

def ConnectionManager.free (m : ConnectionManager) (thread : ThreadId) : Bool :=
  m.task thread = .idle && (m.heap.task thread).isNone

/-- Threads outside call pools between calls of the manager, and end no pool that is
in the map. -/
def ConnectionManager.allows (m : ConnectionManager) (a : PoolAct) : Bool :=
  a.caller.all (fun thread => m.task thread = .idle) &&
    match a with
    | .destroy p => m.connections.all (fun e => e.2 ≠ p)
    | _ => true

def ConnectionManager.step (m : ConnectionManager) : ManagerAct → Option ConnectionManager
  | .openString thread str raw =>
    if m.free thread then m.openString thread str raw else none
  | .find thread raw =>
    match m.task thread with
    | .finding str => m.findSection thread str raw
    | _ => none
  | .openInfo thread info raw =>
    if m.free thread then some (m.openInfo thread info raw) else none
  | .insert thread p rawSize rawIdle =>
    match m.task thread with
    | .inserting info => m.insertSection thread info p rawSize rawIdle
    | _ => none
  | .enter thread now =>
    match m.task thread with
    | .opening _ (some p) =>
      (m.heap.step (.open thread p now)).map (fun heap => { m with heap := heap }.goTo thread .idle)
    | _ => none
  | .collect thread =>
    if m.free thread then some (m.goTo thread (.collected (m.connections.map Prod.snd)))
    else none
  | .gcNext thread now =>
    match m.task thread with
    | .collected (p :: rest) =>
      (m.heap.step (.gc thread p now)).map (fun heap =>
        { m with heap := heap }.goTo thread (.collected rest))
    | _ => none
  | .sweep thread outside =>
    match m.task thread, m.heap.task thread with
    | .collected [], none =>
      (MprMq.Db.sweep (fun p => outside.count p) m.connections).map (fun r =>
        { m with connections := r.connections }.goTo thread (.dropping r.pools))
    | _, _ => none
  | .dropNext thread =>
    match m.task thread with
    | .dropping [] => some (m.goTo thread .idle)
    | .dropping (p :: rest) =>
      (m.heap.step (.destroy p)).map (fun heap =>
        { m with heap := heap }.goTo thread (.dropping rest))
    | _ => none
  | .client a =>
    if m.allows a then (m.heap.step a).map (fun heap => { m with heap := heap }) else none

def managerSystem : System ConnectionManager ManagerAct := ⟨.init,ConnectionManager.step⟩

/-- What each step asks for and does, one case for each way it can go. -/
inductive ConnectionManager.StepTo (m : ConnectionManager) :
    ManagerAct → ConnectionManager → Prop where
  | openPooled {thread : ThreadId} {str : Text} (raw : Int) (hfree : m.free thread = true)
      (hpooled : containsText "@pool_size".toList str = true) :
      StepTo m (.openString thread str raw) (m.goTo thread (.finding str))
  | openPlain {thread : ThreadId} {str : Text} {info : ConnectionInfo} (raw : Int)
      (hfree : m.free thread = true) (hplain : containsText "@pool_size".toList str = false)
      (hinfo : ConnectionInfo.init str = some info) :
      StepTo m (.openString thread str raw) (m.openInfo thread info raw)
  | found {thread : ThreadId} {str : Text} {p : PoolId} (raw : Int)
      (htask : m.task thread = .finding str) (hfind : m.find str = some p) :
      StepTo m (.find thread raw) (m.goTo thread (.opening str (some p)))
  | unknown {thread : ThreadId} {str : Text} {info : ConnectionInfo} (raw : Int)
      (htask : m.task thread = .finding str) (hfind : m.find str = none)
      (hinfo : ConnectionInfo.init str = some info) :
      StepTo m (.find thread raw) (m.openInfo thread info raw)
  | openInfo {thread : ThreadId} (info : ConnectionInfo) (raw : Int)
      (hfree : m.free thread = true) :
      StepTo m (.openInfo thread info raw) (m.openInfo thread info raw)
  | present {thread : ThreadId} {info : ConnectionInfo} {q : PoolId} (p : PoolId)
      (rawSize rawIdle : Int) (htask : m.task thread = .inserting info)
      (hfind : m.find info.connectionString = some q) :
      StepTo m (.insert thread p rawSize rawIdle)
        (m.goTo thread (.opening info.connectionString none))
  | insert {thread : ThreadId} {info : ConnectionInfo} {p : PoolId} {rawSize rawIdle : Int}
      {heap : ConnectionHeap} (htask : m.task thread = .inserting info)
      (hfind : m.find info.connectionString = none)
      (hheap : m.heap.step (.create p info rawSize rawIdle) = some heap) :
      StepTo m (.insert thread p rawSize rawIdle) ({ m with
        heap := heap
        connections := insertConnection info.connectionString p m.connections }.goTo thread
          (.opening info.connectionString (some p)))
  | enter {thread : ThreadId} {key : Text} {p : PoolId} {now : Int} {heap : ConnectionHeap}
      (htask : m.task thread = .opening key (some p))
      (hheap : m.heap.step (.open thread p now) = some heap) :
      StepTo m (.enter thread now) ({ m with heap := heap }.goTo thread .idle)
  | collect {thread : ThreadId} (hfree : m.free thread = true) :
      StepTo m (.collect thread) (m.goTo thread (.collected (m.connections.map Prod.snd)))
  | gcNext {thread : ThreadId} {p : PoolId} {rest : List PoolId} {now : Int}
      {heap : ConnectionHeap} (htask : m.task thread = .collected (p :: rest))
      (hheap : m.heap.step (.gc thread p now) = some heap) :
      StepTo m (.gcNext thread now) ({ m with heap := heap }.goTo thread (.collected rest))
  | sweep {thread : ThreadId} {outside : List PoolId} {r : Sweep}
      (htask : m.task thread = .collected []) (hfree : m.heap.task thread = none)
      (hsweep : MprMq.Db.sweep (fun p => outside.count p) m.connections = some r) :
      StepTo m (.sweep thread outside)
        ({ m with connections := r.connections }.goTo thread (.dropping r.pools))
  | dropped {thread : ThreadId} (htask : m.task thread = .dropping []) :
      StepTo m (.dropNext thread) (m.goTo thread .idle)
  | dropNext {thread : ThreadId} {p : PoolId} {rest : List PoolId} {heap : ConnectionHeap}
      (htask : m.task thread = .dropping (p :: rest))
      (hheap : m.heap.step (.destroy p) = some heap) :
      StepTo m (.dropNext thread) ({ m with heap := heap }.goTo thread (.dropping rest))
  | client {b : PoolAct} {heap : ConnectionHeap} (hallows : m.allows b = true)
      (hheap : m.heap.step b = some heap) : StepTo m (.client b) { m with heap := heap }

theorem manager_step_to {m t : ConnectionManager} {a : ManagerAct} (hs : m.step a = some t) :
    m.StepTo a t := by
  cases a with
  | openString thread str raw =>
    obtain ⟨hfree,hs⟩ := Option.ite_none_right_eq_some.mp hs
    simp only [ConnectionManager.openString] at hs
    split at hs
    case isTrue hpooled => exact Option.some.inj hs ▸ .openPooled raw hfree hpooled
    case isFalse hplain =>
      obtain ⟨info,hinfo,rfl⟩ := Option.map_eq_some_iff.mp hs
      exact .openPlain raw hfree (by simpa using hplain) hinfo
  | find thread raw =>
    simp only [ConnectionManager.step] at hs
    split at hs
    case h_2 => cases hs
    case h_1 htask =>
      simp only [ConnectionManager.findSection] at hs
      split at hs
      case h_1 hfind => exact Option.some.inj hs ▸ .found raw htask hfind
      case h_2 hfind =>
        obtain ⟨info,hinfo,rfl⟩ := Option.map_eq_some_iff.mp hs
        exact .unknown raw htask hfind hinfo
  | openInfo thread info raw =>
    obtain ⟨hfree,⟨⟩⟩ := Option.ite_none_right_eq_some.mp hs
    exact .openInfo info raw hfree
  | insert thread p rawSize rawIdle =>
    simp only [ConnectionManager.step] at hs
    split at hs
    case h_2 => cases hs
    case h_1 htask =>
      simp only [ConnectionManager.insertSection] at hs
      split at hs
      case h_1 hfind => exact Option.some.inj hs ▸ .present p rawSize rawIdle htask hfind
      case h_2 hfind =>
        obtain ⟨heap,hheap,rfl⟩ := Option.map_eq_some_iff.mp hs
        exact .insert htask hfind hheap
  | enter thread now =>
    simp only [ConnectionManager.step] at hs
    split at hs
    case h_2 => cases hs
    case h_1 htask =>
      obtain ⟨heap,hheap,rfl⟩ := Option.map_eq_some_iff.mp hs
      exact .enter htask hheap
  | collect thread =>
    obtain ⟨hfree,⟨⟩⟩ := Option.ite_none_right_eq_some.mp hs
    exact .collect hfree
  | gcNext thread now =>
    simp only [ConnectionManager.step] at hs
    split at hs
    case h_2 => cases hs
    case h_1 htask =>
      obtain ⟨heap,hheap,rfl⟩ := Option.map_eq_some_iff.mp hs
      exact .gcNext htask hheap
  | sweep thread outside =>
    simp only [ConnectionManager.step] at hs
    split at hs
    case h_2 => cases hs
    case h_1 htask hfree =>
      obtain ⟨r,hsweep,rfl⟩ := Option.map_eq_some_iff.mp hs
      exact .sweep htask hfree hsweep
  | dropNext thread =>
    simp only [ConnectionManager.step] at hs
    split at hs
    case h_1 htask => exact Option.some.inj hs ▸ .dropped htask
    case h_2 htask =>
      obtain ⟨heap,hheap,rfl⟩ := Option.map_eq_some_iff.mp hs
      exact .dropNext htask hheap
    case h_3 => cases hs
  | client b =>
    obtain ⟨hallows,hs⟩ := Option.ite_none_right_eq_some.mp hs
    obtain ⟨heap,hheap,rfl⟩ := Option.map_eq_some_iff.mp hs
    exact .client hallows hheap

@[simp] theorem goTo_task_self (m : ConnectionManager) (thread : ThreadId) (task : ManagerTask) :
    (m.goTo thread task).task thread = task := by simp [ConnectionManager.goTo]

theorem goTo_task_of_ne (m : ConnectionManager) {thread other : ThreadId} (task : ManagerTask)
    (h : other ≠ thread) : (m.goTo thread task).task other = m.task other := by
  simp [ConnectionManager.goTo,h]

theorem find_insertConnection (key : Text) (pool : PoolId) {connections : List Connection}
    (h : connections.find? (fun e => e.1 = key) = none) :
    (insertConnection key pool connections).find? (fun e => e.1 = key) = some (key,pool) := by
  induction connections with
  | nil => simp [insertConnection]
  | cons e rest ih =>
    have he : ¬ e.1 = key := by
      intro heq
      simp [heq] at h
    simp only [List.find?_cons,he,decide_false] at h
    simp only [insertConnection]
    split
    · simp
    · simp [he,ih h]

theorem openInfo_opening {m : ConnectionManager} {thread other : ThreadId}
    {info : ConnectionInfo} {raw : Int} {key : Text} {pool : Option PoolId}
    (h : (m.openInfo thread info raw).task other = .opening key pool) :
    m.task other = .opening key pool := by
  by_cases ho : other = thread
  · subst other
    simp only [ConnectionManager.openInfo] at h
    split at h <;> simp at h
  · simp only [ConnectionManager.openInfo] at h
    split at h <;> simpa [goTo_task_of_ne _ _ ho] using h

theorem goTo_opening {m : ConnectionManager} {thread other : ThreadId} {task : ManagerTask}
    {key : Text} {pool : Option PoolId} (htask : ∀ k q, task ≠ .opening k q)
    (h : (m.goTo thread task).task other = .opening key pool) :
    m.task other = .opening key pool := by
  by_cases ho : other = thread
  · subst other
    rw [goTo_task_self] at h
    exact absurd h (htask key pool)
  · rwa [goTo_task_of_ne m task ho] at h

/-- How a call comes to `pool->Open()`: the string was found, or the connection
information was, or a pool was made for it. -/
theorem step_opening {m t : ConnectionManager} {a : ManagerAct} (hs : m.step a = some t)
    {thread : ThreadId} {key : Text} {pool : Option PoolId}
    (ht : t.task thread = .opening key pool) (hm : m.task thread ≠ .opening key pool) :
    (∃ raw p, a = .find thread raw ∧ pool = some p ∧ t.find key = some p) ∨
    (∃ p rawSize rawIdle info, a = .insert thread p rawSize rawIdle ∧
      m.task thread = .inserting info ∧ key = info.connectionString ∧
      (m.find key = none → pool = some p ∧ t.find key = some p)) := by
  cases manager_step_to hs with
  | openPooled | enter | collect | gcNext | sweep | dropped | dropNext =>
    exact absurd (goTo_opening (by simp) ht) hm
  | openPlain | unknown | openInfo => exact absurd (openInfo_opening ht) hm
  | client => exact absurd ht hm
  | @found th str p raw _ hfind =>
    by_cases ho : thread = th
    · subst th
      simp only [goTo_task_self,ManagerTask.opening.injEq] at ht
      obtain ⟨rfl,rfl⟩ := ht
      exact Or.inl ⟨raw,p,rfl,rfl,hfind⟩
    · rw [goTo_task_of_ne _ _ ho] at ht
      exact absurd ht hm
  | @present th info q p rawSize rawIdle htask hfind =>
    by_cases ho : thread = th
    · subst th
      simp only [goTo_task_self,ManagerTask.opening.injEq] at ht
      obtain ⟨rfl,rfl⟩ := ht
      exact Or.inr ⟨p,rawSize,rawIdle,info,rfl,htask,rfl,by simp [hfind]⟩
    · rw [goTo_task_of_ne _ _ ho] at ht
      exact absurd ht hm
  | @insert th info p rawSize rawIdle heap htask hfind hheap =>
    by_cases ho : thread = th
    · subst th
      simp only [goTo_task_self,ManagerTask.opening.injEq] at ht
      obtain ⟨rfl,rfl⟩ := ht
      refine Or.inr ⟨p,rawSize,rawIdle,info,rfl,htask,rfl,fun _ => ⟨rfl,?_⟩⟩
      simp only [ConnectionManager.find,Option.map_eq_none_iff] at hfind
      simp [ConnectionManager.find,ConnectionManager.goTo,find_insertConnection _ p hfind]
    · rw [goTo_task_of_ne _ _ ho] at ht
      exact absurd ht hm

/-- A call that comes to `pool->Open()` comes with the pool that the map holds for
its string. -/
def ReachesPool (m t : ConnectionManager) : Prop :=
  ∀ thread key pool, t.task thread = .opening key pool → m.task thread ≠ .opening key pool →
    ∃ p, pool = some p ∧ t.find key = some p

def FindsNoPool (m : ConnectionManager) (a : ManagerAct) : Prop :=
  ∀ thread p rawSize rawIdle info, a = .insert thread p rawSize rawIdle →
    m.task thread = .inserting info → m.find info.connectionString = none

theorem reachesPool_iff {m t : ConnectionManager} {a : ManagerAct} (hs : m.step a = some t) :
    ReachesPool m t ↔ FindsNoPool m a := by
  constructor
  · intro h thread p rawSize rawIdle info ha htask
    subst a
    by_contra hne
    obtain ⟨q,hq⟩ := Option.ne_none_iff_exists'.mp hne
    simp only [ConnectionManager.step,htask,ConnectionManager.insertSection,hq,
      Option.some.injEq] at hs
    subst t
    obtain ⟨r,hr,-⟩ := h thread info.connectionString none (by simp) (by simp [htask])
    cases hr
  · intro h thread key pool ht hm
    rcases step_opening hs ht hm with ⟨raw,p,-,hpool,hfind⟩ |
      ⟨p,rawSize,rawIdle,info,rfl,htask,rfl,hnew⟩
    · exact ⟨p,hpool,hfind⟩
    · exact ⟨p,hnew (h thread p rawSize rawIdle info rfl htask)⟩

/-- Every call comes to `Open` of the pool of its string in the runs in which each
pool is made by the only `Open(const ConnectionInfo&)` that asks for it, and in no others. -/
theorem open_reaches_pool_iff (as : List ManagerAct) :
    managerSystem.Along (fun m _ t => ReachesPool m t) as ↔
      managerSystem.Along (fun m a _ => FindsNoPool m a) as :=
  System.along_congr (I := fun _ => True) ⟨trivial,fun _ _ _ _ _ => trivial⟩
    (fun _ _ _ _ hs => reachesPool_iff hs) as

def pooledInfo : ConnectionInfo :=
  ⟨[("@pool_size".toList,"2".toList)],"mysql:@pool_size=2".toList,"mysql".toList⟩

/-- Of two sessions opened with one `ConnectionInfo` the second uses a null pool. -/
theorem second_open_gets_null :
    ¬ managerSystem.Along (fun m _ t => ReachesPool m t)
      ([.openInfo 1 pooledInfo 0,.insert 1 0 0 0,.enter 1 0,.client (.enter 1),
        .openInfo 2 pooledInfo 0] ++ [ManagerAct.insert 2 1 0 0]) := by
  intro h
  have hr := System.AlongFrom.after _ h rfl rfl
  obtain ⟨p,hp,-⟩ := hr 2 _ none rfl (by decide)
  cases hp

theorem openInfo_heap (m : ConnectionManager) (thread : ThreadId) (info : ConnectionInfo)
    (raw : Int) : (m.openInfo thread info raw).heap = m.heap ∨
      ∃ b, m.heap.step b = some (m.openInfo thread info raw).heap := by
  unfold ConnectionManager.openInfo
  split
  · exact Or.inr ⟨.connect,rfl⟩
  · exact Or.inl rfl

/-- A step of the manager is at most one step of connections and pools. -/
theorem step_heap {m t : ConnectionManager} {a : ManagerAct} (hs : m.step a = some t) :
    t.heap = m.heap ∨ ∃ b, m.heap.step b = some t.heap := by
  cases manager_step_to hs with
  | openPooled | found | present | collect | sweep | dropped => exact Or.inl rfl
  | openPlain | unknown | openInfo => exact openInfo_heap m _ _ _
  | insert _ _ hheap | enter _ hheap | gcNext _ hheap | dropNext _ hheap | client _ hheap =>
    exact Or.inr ⟨_,hheap⟩

theorem heap_inductive {I : ConnectionHeap → Prop} (h : poolSystem.Inductive I) :
    managerSystem.Inductive (fun m => I m.heap) where
  init := h.init
  step := by
    intro m a t hm hs
    rcases step_heap hs with hsame | ⟨b,hb⟩
    · rw [hsame]
      exact hm
    · exact h.step m.heap b t.heap hm hb

end MprMq.Db
