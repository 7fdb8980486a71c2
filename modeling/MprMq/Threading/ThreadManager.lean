import Mathlib.Logic.Function.Basic
import MprMq.Lib.Monitor
import MprMq.Lib.Run
import MprMq.Lib.SizeT
set_option autoImplicit false

/-! `ThreadManager::Impl`, its workers and the threads that call it. A step is what a
thread does under one of the two locks, `mutex_` of `monitor_` and `max_monitor_` or
that of `worker_monitor_`, or one access outside them: the reads in `StopImpl` and the
writes to `id_map_` in `AddWorker`. A wait ends its step; the next one starts with the
mutex taken again, for whichever reason the wait ended. -/

namespace MprMq.Threading
open MprMq.Lib

abbrev ThreadId := Nat

abbrev RunnableId := Nat

abbrev TaskId := Nat

abbrev CallbackId := Nat

inductive TaskState where
  | waiting | executing | cancelled | complete
  deriving DecidableEq, Repr

structure Task where
  id : TaskId
  runnable : RunnableId
  state : TaskState
  expireTime : Int
  deriving DecidableEq, Repr

/-- The constructor of `Task`; `now` is what it reads of the clock, if it does. -/
def Task.new (id : TaskId) (runnable : RunnableId) (expiration now : Int) : Task :=
  ⟨id,runnable,.waiting,if expiration ≠ 0 then now+expiration else 0⟩

def Task.expired (now : Int) (task : Task) : Bool := task.expireTime ≠ 0 && task.expireTime ≤ now

/-- What a worker makes of the task at the front. -/
def Task.take (task : Task) : Task :=
  if task.state = .waiting then { task with state := .executing } else task

inductive State where
  | uninitialized | starting | started | joining | stopping | stopped
  deriving DecidableEq, Repr

/-- Where a worker thread is in `Worker::Run`. `created` is before `Thread::Start`,
`entering` before the first lock, `notifying` before the notification of the manager,
`looping` before the lock of the loop, `waiting` inside `monitor_.Wait`, and `leaving`
before the last lock, with whether the worker counted itself at the start. -/
inductive WorkerPhase where
  | absent | created | entering | notifying | looping | waiting
  | executing : Task → WorkerPhase
  | leaving : Bool → WorkerPhase
  | finished
  deriving DecidableEq, Repr

/-- Where a thread is in the call it has made. `starting` and `mapping` are the loop of
`AddWorker`, `growing` and `removing` are before or inside `worker_monitor_.Wait`; the
flag says whether `StopImpl` called, and for which of `Stop` and `Join` (`join`). -/
inductive CallPhase where
  | none
  | starting : List ThreadId → CallPhase
  | mapping : ThreadId → List ThreadId → CallPhase
  | growing : CallPhase
  | adding : RunnableId → Int → Int → CallPhase
  | removing : Option Bool → CallPhase
  | stopping : Bool → CallPhase
  | stopReading : Bool → CallPhase
  | stopRemoving : Bool → Nat → CallPhase
  | stopLast : Bool → Bool → CallPhase
  deriving DecidableEq, Repr

inductive Method where
  | start | stop | join | addWorker | removeWorker | add | removeNextPending
  deriving DecidableEq, Repr

inductive Exception where
  | invalidArgument | timedOut | illegalState | tooManyPendingTasks
  deriving DecidableEq, Repr

/-- What has happened to tasks and calls. -/
inductive Event where
  | pushed : TaskId → Event
  | executed : TaskId → Event
  | expired : TaskId → Option CallbackId → Event
  | removed : TaskId → Event
  | returned : ThreadId → Method → Event
  | threw : ThreadId → Method → Exception → Event
  deriving DecidableEq, Repr

/-- `threads` are all the worker threads ever created; the three monitors are the
threads that wait there and that nothing has notified since. -/
structure ThreadManager where
  threadFactory : Bool
  workerCount : Nat
  workerMaxCount : Nat
  idleCount : Nat
  pendingTaskCountMax : Nat
  expiredCount : Nat
  expireCallback : Option CallbackId
  state : State
  tasks : List Task
  nextTask : TaskId
  workers : List ThreadId
  deadWorkers : List ThreadId
  idMap : List ThreadId
  monitor : Waiters ThreadId
  maxMonitor : Waiters ThreadId
  workerMonitor : Waiters ThreadId
  threads : List ThreadId
  phase : ThreadId → WorkerPhase
  call : ThreadId → CallPhase
  log : List Event

namespace ThreadManager

def init : ThreadManager :=
  ⟨false,0,0,0,0,0,none,.uninitialized,[],0,[],[],[],[],[],[],[],fun _ => .absent,
    fun _ => .none,[]⟩

def move (s : ThreadManager) (w : ThreadId) (p : WorkerPhase) : ThreadManager :=
  { s with phase := Function.update s.phase w p }

def goto (s : ThreadManager) (t : ThreadId) (p : CallPhase) : ThreadManager :=
  { s with call := Function.update s.call t p }

def record (s : ThreadManager) (es : List Event) : ThreadManager := { s with log := s.log ++ es }

def ret (s : ThreadManager) (t : ThreadId) (m : Method) : ThreadManager :=
  (s.goto t .none).record [.returned t m]

def throw (s : ThreadManager) (t : ThreadId) (m : Method) (e : Exception) : ThreadManager :=
  (s.goto t .none).record [.threw t m e]

def isActive (s : ThreadManager) : Bool :=
  s.workerCount ≤ s.workerMaxCount || (s.state = .joining && !s.tasks.isEmpty)

/-- `RemoveExpiredTasks`; the clock is read once at most. -/
def removeExpiredTasks (s : ThreadManager) (now : Int) : ThreadManager :=
  let gone := s.tasks.takeWhile (Task.expired now)
  { s with
    tasks := s.tasks.dropWhile (Task.expired now)
    expiredCount := s.expiredCount+gone.length
    log := s.log ++ gone.map (fun task => .expired task.id s.expireCallback) }

/-! The workers. -/

def enter (s : ThreadManager) (w : ThreadId) : ThreadManager :=
  if s.workerCount < s.workerMaxCount then
    { s with workerCount := s.workerCount+1 }.move w
      (if s.workerCount+1 = s.workerMaxCount then .notifying else .looping)
  else s.move w (.leaving false)

def notifyManager (s : ThreadManager) (w : ThreadId) (woken : Option ThreadId) :
    Option ThreadManager :=
  (s.workerMonitor.notify woken).map (fun m => { s with workerMonitor := m }.move w .looping)

/-- The end of the critical section of the loop, for a worker that is active with the
queue not empty. Expiry can leave it without a task; `woken` gets the signal to those
that wait for room. -/
def takeTask (s : ThreadManager) (w : ThreadId) (now : Int) (woken : Option ThreadId) :
    Option ThreadManager :=
  let s := s.removeExpiredTasks now
  let s : ThreadManager := match s.tasks with
    | [] => s.move w .looping
    | task :: rest => { s with tasks := rest }.move w (.executing task.take)
  if s.pendingTaskCountMax ≠ 0 ∧ s.tasks.length ≤ s.pendingTaskCountMax-1 then
    (s.maxMonitor.notify woken).map (fun m => { s with maxMonitor := m })
  else some s

/-- From a test of `IsActive` to the next wait or to the end of the section. -/
def loopTest (s : ThreadManager) (w : ThreadId) (now : Int) (woken : Option ThreadId) :
    Option ThreadManager :=
  if s.isActive then
    if s.tasks = [] then
      some ({ s with idleCount := s.idleCount+1, monitor := s.monitor.park w }.move w .waiting)
    else s.takeTask w now woken
  else some (s.move w (.leaving true))

/-- A worker at the lock of its loop, or back from the wait in it. -/
def take (s : ThreadManager) (w : ThreadId) (now : Int) (woken : Option ThreadId) :
    Option ThreadManager :=
  match s.phase w with
  | .looping => s.loopTest w now woken
  | .waiting =>
    { s with
      idleCount := SizeT.dec s.idleCount
      monitor := s.monitor.leave w }.loopTest w now woken
  | _ => none

/-- The task is over, by an exception or not, and the worker lets go of it. -/
def finish (s : ThreadManager) (w : ThreadId) (task : Task) : ThreadManager :=
  (s.move w .looping).record (if task.state = .executing then [.executed task.id] else [])

def exit (s : ThreadManager) (w : ThreadId) (woken : Option ThreadId) : Option ThreadManager :=
  let s := { s with
    deadWorkers := w :: s.deadWorkers
    workerCount := SizeT.dec s.workerCount }.move w .finished
  if s.workerCount = s.workerMaxCount then
    (s.workerMonitor.notify woken).map (fun m => { s with workerMonitor := m })
  else some s

/-! The calls. -/

def start (s : ThreadManager) (t : ThreadId) : Option ThreadManager :=
  match s.state with
  | .uninitialized =>
    if s.threadFactory then some ({ s with state := .started, monitor := [] }.ret t .start)
    else some (s.throw t .start .invalidArgument)
  | .starting => none
  | _ => some (s.ret t .start)

/-- `AddWorker` up to the start of the threads `ids`, in the order of the set. -/
def addWorker (s : ThreadManager) (t : ThreadId) (ids : List ThreadId) : ThreadManager :=
  { s with
    workerMaxCount := s.workerMaxCount+ids.length
    workers := s.workers ++ ids
    threads := s.threads ++ ids
    phase := fun w => if w ∈ ids then .created else s.phase w }.goto t (.starting ids)

/-- `Thread::Start`, which does nothing to a thread that was started before. -/
def startThread (s : ThreadManager) (w : ThreadId) : ThreadManager :=
  if s.phase w = .created then s.move w .entering else s

def addWorkerTest (s : ThreadManager) (t : ThreadId) : ThreadManager :=
  if s.workerCount ≠ s.workerMaxCount then
    { s with workerMonitor := s.workerMonitor.park t }.goto t .growing
  else { s with workerMonitor := s.workerMonitor.leave t }.ret t .addWorker

/-- Who is still parked after the notifications of `RemoveWorker`. -/
def wakeForRemoval (s : ThreadManager) (value : Nat) (woken : List (Option ThreadId)) :
    Option (Waiters ThreadId) :=
  if s.idleCount < value then
    if woken.length = s.idleCount then s.monitor.notifyEach woken else none
  else some []

def removeMethod : Option Bool → Method
  | none => .removeWorker
  | some false => .stop
  | some true => .join

def removeWorker (s : ThreadManager) (t : ThreadId) (value : Nat) (stop : Option Bool)
    (woken : List (Option ThreadId)) : Option ThreadManager :=
  if s.workerMaxCount < value then some (s.throw t (removeMethod stop) .invalidArgument)
  else
    (s.wakeForRemoval value woken).map (fun m =>
      { s with
        workerMaxCount := s.workerMaxCount-value
        monitor := m }.goto t (.removing stop))

def removeWorkerTest (s : ThreadManager) (t : ThreadId) (stop : Option Bool) : ThreadManager :=
  if s.workerCount ≠ s.workerMaxCount then
    { s with workerMonitor := s.workerMonitor.park t }
  else
    let s := { s with
      workerMonitor := s.workerMonitor.leave t
      idMap := s.idMap.filter (fun w => w ∉ s.deadWorkers)
      workers := s.workers.filter (fun w => w ∉ s.deadWorkers)
      deadWorkers := [] }
    match stop with
    | none => s.ret t .removeWorker
    | some join => s.goto t (.stopLast join true)

def stop (s : ThreadManager) (t : ThreadId) (join : Bool) : ThreadManager :=
  if s.state = .stopped then s.ret t (removeMethod (some join)) else s.goto t (.stopping join)

def stopSection (s : ThreadManager) (t : ThreadId) (join : Bool) : ThreadManager :=
  if s.state ≠ .stopping ∧ s.state ≠ .joining ∧ s.state ≠ .stopped then
    { s with state := if join then .joining else .stopping }.goto t (.stopReading join)
  else s.goto t (.stopLast join false)

def stopLast (s : ThreadManager) (t : ThreadId) (join : Bool) : ThreadManager :=
  { s with state := .stopped }.ret t (removeMethod (some join))

/-- `CanSleep`: the caller is no worker thread that `id_map_` knows. -/
def canSleep (s : ThreadManager) (t : ThreadId) : Bool := t ∉ s.idMap

def full (s : ThreadManager) : Bool :=
  0 < s.pendingTaskCountMax && s.pendingTaskCountMax ≤ s.tasks.length

/-- The push that ends `Add`, and its signal. -/
def push (s : ThreadManager) (t : ThreadId) (runnable : RunnableId) (expiration created : Int)
    (woken : Option ThreadId) : Option ThreadManager :=
  let s := { s with
    tasks := s.tasks ++ [Task.new s.nextTask runnable expiration created]
    nextTask := s.nextTask+1
    log := s.log ++ [Event.pushed s.nextTask] }.ret t .add
  if 0 < s.idleCount then
    (s.monitor.notify woken).map (fun m => { s with monitor := m })
  else some s

/-- The loop of `Add` that waits for room, entered or come back to. -/
def addTest (s : ThreadManager) (t : ThreadId) (runnable : RunnableId)
    (timeout expiration created : Int) (woken : Option ThreadId) : Option ThreadManager :=
  if s.full then
    some ({ s with maxMonitor := s.maxMonitor.park t }.goto t (.adding runnable timeout expiration))
  else { s with maxMonitor := s.maxMonitor.leave t }.push t runnable expiration created woken

/-- `Add` up to its first wait; `locked` is whether the guard has got the mutex. -/
def add (s : ThreadManager) (t : ThreadId) (runnable : RunnableId)
    (timeout expiration now created : Int) (locked : Bool) (woken : Option ThreadId) :
    Option ThreadManager :=
  if !locked then
    if timeout ≠ 0 then some (s.throw t .add .timedOut) else none
  else if s.state ≠ .started then some (s.throw t .add .illegalState)
  else
    let s := s.removeExpiredTasks now
    if s.full ∧ !(s.canSleep t && 0 ≤ timeout) then some (s.throw t .add .tooManyPendingTasks)
    else s.addTest t runnable timeout expiration created woken

def addTimeout (s : ThreadManager) (t : ThreadId) : ThreadManager :=
  { s with maxMonitor := s.maxMonitor.leave t }.throw t .add .timedOut

def removeNextPending (s : ThreadManager) (t : ThreadId) : ThreadManager :=
  if s.state ≠ .started then s.throw t .removeNextPending .illegalState
  else
    match s.tasks with
    | [] => s.ret t .removeNextPending
    | task :: rest => ({ s with tasks := rest }.record [.removed task.id]).ret t .removeNextPending

end ThreadManager

/-- What can happen next. A label names the thread and carries what the step takes from
outside: times, the threads that signals go to, whether a lock was got in time. -/
inductive Act where
  | setThreadFactory : Bool → Act
  | start : ThreadId → Act
  | addWorker : ThreadId → List ThreadId → Act
  | startThread : ThreadId → Act
  | mapThread : ThreadId → Act
  | addWorkerTest : ThreadId → Act
  | removeWorker : ThreadId → Nat → List (Option ThreadId) → Act
  | removeWorkerTest : ThreadId → Act
  | stop : ThreadId → Bool → Act
  | stopSection : ThreadId → Act
  | stopRead : ThreadId → Act
  | stopRemove : ThreadId → List (Option ThreadId) → Act
  | stopLast : ThreadId → Act
  | add : ThreadId → RunnableId → Int → Int → Int → Int → Bool → Option ThreadId → Act
  | addResume : ThreadId → Int → Option ThreadId → Act
  | addTimeout : ThreadId → Act
  | removeNextPending : ThreadId → Act
  | removeExpiredTasks : Int → Act
  | setPendingTaskCountMax : Nat → Act
  | setExpireCallback : Option CallbackId → Act
  | expiredTaskCount : Act
  | enter : ThreadId → Act
  | notifyManager : ThreadId → Option ThreadId → Act
  | take : ThreadId → Int → Option ThreadId → Act
  | finish : ThreadId → Act
  | exit : ThreadId → Option ThreadId → Act
  deriving DecidableEq, Repr

namespace ThreadManager

/-- A thread in no call makes one: a thread that is no worker, or a worker from inside
the task it executes. -/
def canCall (s : ThreadManager) (t : ThreadId) : Bool :=
  s.call t = .none &&
    match s.phase t with
    | .absent | .executing _ => true
    | _ => false

/-- The threads that `NewThread` makes are new ones. -/
def fresh (s : ThreadManager) (ids : List ThreadId) : Bool :=
  ids.Nodup && ids.all (fun w => s.phase w = .absent && s.call w = .none)

def step (s : ThreadManager) : Act → Option ThreadManager
  | .setThreadFactory value => some { s with threadFactory := value }
  | .start t => if s.canCall t then s.start t else none
  | .addWorker t ids =>
    if s.canCall t && s.threadFactory && t ∉ ids && s.fresh ids then some (s.addWorker t ids)
    else none
  | .startThread t =>
    match s.call t with
    | .starting (w :: rest) => some ((s.startThread w).goto t (.mapping w rest))
    | _ => none
  | .mapThread t =>
    match s.call t with
    | .mapping w rest => some ({ s with idMap := w :: s.idMap }.goto t (.starting rest))
    | _ => none
  | .addWorkerTest t =>
    match s.call t with
    | .starting [] | .growing => some (s.addWorkerTest t)
    | _ => none
  | .removeWorker t value woken =>
    if s.canCall t then s.removeWorker t value none woken else none
  | .removeWorkerTest t =>
    match s.call t with
    | .removing stop => some (s.removeWorkerTest t stop)
    | _ => none
  | .stop t join => if s.canCall t then some (s.stop t join) else none
  | .stopSection t =>
    match s.call t with
    | .stopping join => some (s.stopSection t join)
    | _ => none
  | .stopRead t =>
    match s.call t with
    | .stopReading join => some (s.goto t (.stopRemoving join s.workerCount))
    | _ => none
  | .stopRemove t woken =>
    match s.call t with
    | .stopRemoving join value => s.removeWorker t value (some join) woken
    | _ => none
  | .stopLast t =>
    match s.call t with
    | .stopLast join _ => some (s.stopLast t join)
    | _ => none
  | .add t runnable timeout expiration now created locked woken =>
    if s.canCall t then s.add t runnable timeout expiration now created locked woken else none
  | .addResume t created woken =>
    match s.call t with
    | .adding runnable timeout expiration =>
      s.addTest t runnable timeout expiration created woken
    | _ => none
  | .addTimeout t =>
    match s.call t with
    | .adding _ timeout _ =>
      if 0 < timeout && t ∈ s.maxMonitor then some (s.addTimeout t) else none
    | _ => none
  | .removeNextPending t => if s.canCall t then some (s.removeNextPending t) else none
  | .removeExpiredTasks now => some (s.removeExpiredTasks now)
  | .setPendingTaskCountMax value => some { s with pendingTaskCountMax := value }
  | .setExpireCallback callback => some { s with expireCallback := callback }
  | .expiredTaskCount => some { s with expiredCount := 0 }
  | .enter w => if s.phase w = .entering then some (s.enter w) else none
  | .notifyManager w woken => if s.phase w = .notifying then s.notifyManager w woken else none
  | .take w now woken => s.take w now woken
  | .finish w =>
    match s.phase w with
    | .executing task => if s.call w = .none then some (s.finish w task) else none
    | _ => none
  | .exit w woken =>
    match s.phase w with
    | .leaving _ => s.exit w woken
    | _ => none

def system : System ThreadManager Act := ⟨init,step⟩

/-- What each step asks for and does, one case for each label. -/
inductive StepTo (s : ThreadManager) : Act → ThreadManager → Prop where
  | setThreadFactory (value : Bool) :
      StepTo s (.setThreadFactory value) { s with threadFactory := value }
  | start {u : ThreadId} {t : ThreadManager} (hcan : s.canCall u = true)
      (hstart : s.start u = some t) : StepTo s (.start u) t
  | addWorker {u : ThreadId} {ids : List ThreadId} (hcan : s.canCall u = true)
      (hfactory : s.threadFactory = true) (hself : u ∉ ids) (hn : ids.Nodup)
      (hnew : ∀ w ∈ ids, s.phase w = .absent ∧ s.call w = .none) :
      StepTo s (.addWorker u ids) (s.addWorker u ids)
  | startThread {u w : ThreadId} {rest : List ThreadId} (hu : s.call u = .starting (w :: rest)) :
      StepTo s (.startThread u) ((s.startThread w).goto u (.mapping w rest))
  | mapThread {u w : ThreadId} {rest : List ThreadId} (hu : s.call u = .mapping w rest) :
      StepTo s (.mapThread u) ({ s with idMap := w :: s.idMap }.goto u (.starting rest))
  | addWorkerTest {u : ThreadId} (hu : s.call u = .starting [] ∨ s.call u = .growing) :
      StepTo s (.addWorkerTest u) (s.addWorkerTest u)
  | removeWorker {u : ThreadId} {value : Nat} {woken : List (Option ThreadId)}
      {t : ThreadManager} (hcan : s.canCall u = true)
      (hremove : s.removeWorker u value none woken = some t) :
      StepTo s (.removeWorker u value woken) t
  | removeWorkerTest {u : ThreadId} {stop : Option Bool} (hu : s.call u = .removing stop) :
      StepTo s (.removeWorkerTest u) (s.removeWorkerTest u stop)
  | stop {u : ThreadId} (join : Bool) (hcan : s.canCall u = true) :
      StepTo s (.stop u join) (s.stop u join)
  | stopSection {u : ThreadId} {join : Bool} (hu : s.call u = .stopping join) :
      StepTo s (.stopSection u) (s.stopSection u join)
  | stopRead {u : ThreadId} {join : Bool} (hu : s.call u = .stopReading join) :
      StepTo s (.stopRead u) (s.goto u (.stopRemoving join s.workerCount))
  | stopRemove {u : ThreadId} {join : Bool} {value : Nat} {woken : List (Option ThreadId)}
      {t : ThreadManager} (hu : s.call u = .stopRemoving join value)
      (hremove : s.removeWorker u value (some join) woken = some t) :
      StepTo s (.stopRemove u woken) t
  | stopLast {u : ThreadId} {join doStop : Bool} (hu : s.call u = .stopLast join doStop) :
      StepTo s (.stopLast u) (s.stopLast u join)
  | add {u : ThreadId} {runnable : RunnableId} {timeout expiration now created : Int}
      {locked : Bool} {woken : Option ThreadId} {t : ThreadManager} (hcan : s.canCall u = true)
      (hadd : s.add u runnable timeout expiration now created locked woken = some t) :
      StepTo s (.add u runnable timeout expiration now created locked woken) t
  | addResume {u : ThreadId} {runnable : RunnableId} {timeout expiration created : Int}
      {woken : Option ThreadId} {t : ThreadManager}
      (hu : s.call u = .adding runnable timeout expiration)
      (htest : s.addTest u runnable timeout expiration created woken = some t) :
      StepTo s (.addResume u created woken) t
  | addTimeout {u : ThreadId} {runnable : RunnableId} {timeout expiration : Int}
      (hu : s.call u = .adding runnable timeout expiration) (hpos : 0 < timeout)
      (hmem : u ∈ s.maxMonitor) : StepTo s (.addTimeout u) (s.addTimeout u)
  | removeNextPending {u : ThreadId} (hcan : s.canCall u = true) :
      StepTo s (.removeNextPending u) (s.removeNextPending u)
  | removeExpiredTasks (now : Int) :
      StepTo s (.removeExpiredTasks now) (s.removeExpiredTasks now)
  | setPendingTaskCountMax (value : Nat) :
      StepTo s (.setPendingTaskCountMax value) { s with pendingTaskCountMax := value }
  | setExpireCallback (callback : Option CallbackId) :
      StepTo s (.setExpireCallback callback) { s with expireCallback := callback }
  | expiredTaskCount : StepTo s .expiredTaskCount { s with expiredCount := 0 }
  | enter {w : ThreadId} (hw : s.phase w = .entering) : StepTo s (.enter w) (s.enter w)
  | notifyManager {w : ThreadId} {woken : Option ThreadId} {m : Waiters ThreadId}
      (hw : s.phase w = .notifying) (hm : s.workerMonitor.notify woken = some m) :
      StepTo s (.notifyManager w woken) ({ s with workerMonitor := m }.move w .looping)
  | take {w : ThreadId} {now : Int} {woken : Option ThreadId} {t : ThreadManager}
      (htake : s.take w now woken = some t) : StepTo s (.take w now woken) t
  | finish {w : ThreadId} {task : Task} (hw : s.phase w = .executing task)
      (hcall : s.call w = .none) : StepTo s (.finish w) (s.finish w task)
  | exit {w : ThreadId} {b : Bool} {woken : Option ThreadId} {t : ThreadManager}
      (hw : s.phase w = .leaving b) (hexit : s.exit w woken = some t) :
      StepTo s (.exit w woken) t

theorem step_to {s t : ThreadManager} {a : Act} (h : s.step a = some t) : s.StepTo a t := by
  cases a with
  | setThreadFactory value => exact Option.some.inj h ▸ .setThreadFactory value
  | removeExpiredTasks now => exact Option.some.inj h ▸ .removeExpiredTasks now
  | setPendingTaskCountMax value => exact Option.some.inj h ▸ .setPendingTaskCountMax value
  | setExpireCallback callback => exact Option.some.inj h ▸ .setExpireCallback callback
  | expiredTaskCount => exact Option.some.inj h ▸ .expiredTaskCount
  | start u =>
    obtain ⟨hcan,h⟩ := Option.ite_none_right_eq_some.mp h
    exact .start hcan h
  | addWorker u ids =>
    obtain ⟨hc,⟨⟩⟩ := Option.ite_none_right_eq_some.mp h
    simp only [Bool.and_eq_true,fresh,decide_eq_true_eq,List.all_eq_true] at hc
    exact .addWorker hc.1.1.1 hc.1.1.2 hc.1.2 hc.2.1 hc.2.2
  | removeWorker u value woken =>
    obtain ⟨hcan,h⟩ := Option.ite_none_right_eq_some.mp h
    exact .removeWorker hcan h
  | stop u join =>
    obtain ⟨hcan,⟨⟩⟩ := Option.ite_none_right_eq_some.mp h
    exact .stop join hcan
  | add u runnable timeout expiration now created locked woken =>
    obtain ⟨hcan,h⟩ := Option.ite_none_right_eq_some.mp h
    exact .add hcan h
  | removeNextPending u =>
    obtain ⟨hcan,⟨⟩⟩ := Option.ite_none_right_eq_some.mp h
    exact .removeNextPending hcan
  | enter w =>
    obtain ⟨hw,⟨⟩⟩ := Option.ite_none_right_eq_some.mp h
    exact .enter hw
  | notifyManager w woken =>
    obtain ⟨hw,h⟩ := Option.ite_none_right_eq_some.mp h
    obtain ⟨m,hm,rfl⟩ := Option.map_eq_some_iff.mp h
    exact .notifyManager hw hm
  | take w now woken => exact .take h
  | startThread u =>
    simp only [step] at h
    split at h
    case h_1 hu => exact Option.some.inj h ▸ .startThread hu
    case h_2 => cases h
  | mapThread u =>
    simp only [step] at h
    split at h
    case h_1 hu => exact Option.some.inj h ▸ .mapThread hu
    case h_2 => cases h
  | addWorkerTest u =>
    simp only [step] at h
    split at h
    case h_1 hu => exact Option.some.inj h ▸ .addWorkerTest (.inl hu)
    case h_2 hu => exact Option.some.inj h ▸ .addWorkerTest (.inr hu)
    case h_3 => cases h
  | removeWorkerTest u =>
    simp only [step] at h
    split at h
    case h_1 hu => exact Option.some.inj h ▸ .removeWorkerTest hu
    case h_2 => cases h
  | stopSection u =>
    simp only [step] at h
    split at h
    case h_1 hu => exact Option.some.inj h ▸ .stopSection hu
    case h_2 => cases h
  | stopRead u =>
    simp only [step] at h
    split at h
    case h_1 hu => exact Option.some.inj h ▸ .stopRead hu
    case h_2 => cases h
  | stopRemove u woken =>
    simp only [step] at h
    split at h
    case h_1 hu => exact .stopRemove hu h
    case h_2 => cases h
  | stopLast u =>
    simp only [step] at h
    split at h
    case h_1 hu => exact Option.some.inj h ▸ .stopLast hu
    case h_2 => cases h
  | addResume u created woken =>
    simp only [step] at h
    split at h
    case h_1 hu => exact .addResume hu h
    case h_2 => cases h
  | addTimeout u =>
    simp only [step] at h
    split at h
    case h_1 hu =>
      obtain ⟨hwait,⟨⟩⟩ := Option.ite_none_right_eq_some.mp h
      simp only [Bool.and_eq_true,decide_eq_true_eq] at hwait
      exact .addTimeout hu hwait.1 hwait.2
    case h_2 => cases h
  | finish w =>
    simp only [step] at h
    split at h
    case h_1 hw =>
      obtain ⟨hcall,⟨⟩⟩ := Option.ite_none_right_eq_some.mp h
      exact .finish hw hcall
    case h_2 => cases h
  | exit w woken =>
    simp only [step] at h
    split at h
    case h_1 hw => exact .exit hw h
    case h_2 => cases h

end ThreadManager
end MprMq.Threading
