import Mathlib.Logic.Function.Basic
import MprMq.Base.Status
import MprMq.Lib.Monitor
import MprMq.Lib.Run
set_option autoImplicit false

/-! `AmqpServer`, its `ServiceExecutor`s and the threads that call it. A call under
`mu_` is one step; a `Join` that waits holds `mu_` from its first step to its last. -/

namespace MprMq.Server
open MprMq.Base MprMq.Lib

abbrev ThreadId := Nat

abbrev ServiceId := Nat

/-- A `ServiceExecutor*`, also the name of the thread that runs it. -/
abbrev ExecutorId := Nat

structure ServiceExecutor where
  id : ExecutorId
  service : ServiceId
  deriving DecidableEq, Repr

inductive State where
  | new | started | stopped
  deriving DecidableEq, Repr

/-- How far `ServiceExecutor::Run` is: `running` is inside `HandleLoop` or before it,
`returned` is between `HandleLoop` and the lock of the monitor. -/
inductive ExecutorPhase where
  | idle | running | returned | finished
  deriving DecidableEq, Repr

/-- `joining` says whether the destructor called `Join`; `destroying` is the
destructor between `Stop` and `Join`. -/
inductive CallPhase where
  | idle | destroying
  | joining : Bool → CallPhase
  deriving DecidableEq, Repr

/-- `threadPool` is in no order: the set is sorted by address. `monitor` are the
waiters of `monitor_`; `dying` is set when the destructor starts. -/
structure AmqpServer where
  state : State
  serviceExecutorList : List ServiceExecutor
  threadPool : List ExecutorId
  monitor : Waiters ThreadId
  totalTasks : Int
  mu : Option ThreadId
  nextExecutor : ExecutorId
  executors : ExecutorId → ExecutorPhase
  calls : ThreadId → CallPhase
  dying : Bool

def AmqpServer.init : AmqpServer :=
  ⟨.new,[],[],[],0,none,0,fun _ => .idle,fun _ => .idle,false⟩

/-- The two loops of `Start`: threads for the executors, then all of them started. -/
def AmqpServer.launch (s : AmqpServer) : AmqpServer :=
  let threads := s.serviceExecutorList.map ServiceExecutor.id
  { s with
    threadPool := s.threadPool ++ threads
    executors := fun e => if e ∈ threads then .running else s.executors e }

def AmqpServer.start (s : AmqpServer) : AmqpServer × Status :=
  match s.state with
  | .new => ({ s.launch with state := .started },.ok)
  | .started => (s,.ok)
  | .stopped => (s,.error .failedPrecondition "Server has stopped".toList)

def AmqpServer.stop (s : AmqpServer) : AmqpServer × Status :=
  match s.state with
  | .new | .started => ({ s with state := .stopped },.ok)
  | .stopped => (s,.ok)

def AmqpServer.insertAsyncService (s : AmqpServer) (service : ServiceId) :
    AmqpServer × Status :=
  if s.serviceExecutorList.any (fun e => e.service = service) then
    (s,.error .alreadyExists "service already existed".toList)
  else
    ({ s with
       serviceExecutorList := s.serviceExecutorList ++ [⟨s.nextExecutor,service⟩]
       nextExecutor := s.nextExecutor+1
       totalTasks := s.totalTasks+1 },.ok)

/-- The loop of `RemoveAsyncService`, with `erase` going on at the next element. -/
def removeLoop (service : ServiceId) :
    List ServiceExecutor → Int → List ServiceExecutor × Int
  | [], totalTasks => ([],totalTasks)
  | it :: rest, totalTasks =>
    if it.service = service then removeLoop service rest (totalTasks-1)
    else
      let r := removeLoop service rest totalTasks
      (it :: r.1,r.2)

def AmqpServer.removeAsyncService (s : AmqpServer) (service : ServiceId) :
    AmqpServer × Status :=
  let r := removeLoop service s.serviceExecutorList s.totalTasks
  ({ s with serviceExecutorList := r.1, totalTasks := r.2 },.ok)

/-- `Join` up to the lock of the monitor; in state `NEW` it returns from here. -/
def AmqpServer.join (s : AmqpServer) (thread : ThreadId) (destructor : Bool) : AmqpServer :=
  match s.state with
  | .new =>
    { s with
      state := .stopped
      calls := Function.update s.calls thread .idle }
  | .started | .stopped =>
    { s with
      mu := some thread
      calls := Function.update s.calls thread (.joining destructor) }

/-- The test of the loop of `Join`, on the way in and after each `Wait`. -/
def AmqpServer.joinTest (s : AmqpServer) (thread : ThreadId) : AmqpServer :=
  if 0 < s.totalTasks then { s with monitor := s.monitor.park thread }
  else
    { s with
      monitor := s.monitor.leave thread
      mu := none
      calls := Function.update s.calls thread .idle }

/-- The end of `ServiceExecutor::Run`; `woken` is who the signal goes to. -/
def AmqpServer.finish (s : AmqpServer) (e : ExecutorId) (woken : Option ThreadId) :
    Option AmqpServer :=
  let s := { s with
    totalTasks := s.totalTasks-1
    executors := Function.update s.executors e .finished }
  if s.totalTasks = 0 then
    (s.monitor.notify woken).map (fun m => { s with monitor := m })
  else if woken = none then some s else none

inductive ServerAct where
  | insert : ServiceId → ServerAct
  | remove : ServiceId → ServerAct
  | start : ServerAct
  | stop : ServerAct
  | join : ThreadId → ServerAct
  | destroy : ThreadId → ServerAct
  | joinTest : ThreadId → ServerAct
  | loopReturned : ExecutorId → ServerAct
  | finish : ExecutorId → Option ThreadId → ServerAct
  deriving DecidableEq, Repr

/-- A client call needs `mu_`, and a server that is not being destroyed. -/
def AmqpServer.open (s : AmqpServer) : Bool := s.mu.isNone && !s.dying

def AmqpServer.step (s : AmqpServer) : ServerAct → Option AmqpServer
  | .insert service => if s.open then some (s.insertAsyncService service).1 else none
  | .remove service => if s.open then some (s.removeAsyncService service).1 else none
  | .start => if s.open then some s.start.1 else none
  | .stop => if s.open then some s.stop.1 else none
  | .join thread =>
    match s.calls thread with
    | .idle => if s.open then some (s.join thread false) else none
    | .destroying => if s.mu.isNone then some (s.join thread true) else none
    | .joining _ => none
  | .destroy thread =>
    if s.open && s.calls thread = .idle then
      some { s.stop.1 with
        calls := Function.update s.calls thread .destroying
        dying := true }
    else none
  | .joinTest thread =>
    match s.calls thread with
    | .joining _ => some (s.joinTest thread)
    | _ => none
  | .loopReturned e =>
    if s.executors e = .running then
      some { s with executors := Function.update s.executors e .returned }
    else none
  | .finish e woken => if s.executors e = .returned then s.finish e woken else none

def AmqpServer.system : System AmqpServer ServerAct := ⟨AmqpServer.init,AmqpServer.step⟩

theorem AmqpServer.open_mu {s : AmqpServer} (h : s.open = true) : s.mu = none := by
  simp only [AmqpServer.open,Bool.and_eq_true,Option.isNone_iff_eq_none] at h
  exact h.1

/-- What each step asks for and does; `joinLast` is the `Join` of the destructor. -/
inductive AmqpServer.StepTo (s : AmqpServer) : ServerAct → AmqpServer → Prop where
  | insert (service : ServiceId) (ho : s.open = true) :
      StepTo s (.insert service) (s.insertAsyncService service).1
  | remove (service : ServiceId) (ho : s.open = true) :
      StepTo s (.remove service) (s.removeAsyncService service).1
  | start (ho : s.open = true) : StepTo s .start s.start.1
  | stop (ho : s.open = true) : StepTo s .stop s.stop.1
  | join {thread : ThreadId} (ho : s.open = true) (hcall : s.calls thread = .idle) :
      StepTo s (.join thread) (s.join thread false)
  | joinLast {thread : ThreadId} (hmu : s.mu = none) (hcall : s.calls thread = .destroying) :
      StepTo s (.join thread) (s.join thread true)
  | destroy {thread : ThreadId} (ho : s.open = true) (hcall : s.calls thread = .idle) :
      StepTo s (.destroy thread) { s.stop.1 with
        calls := Function.update s.calls thread .destroying
        dying := true }
  | joinTest {thread : ThreadId} {d : Bool} (hj : s.calls thread = .joining d) :
      StepTo s (.joinTest thread) (s.joinTest thread)
  | loopReturned {e : ExecutorId} (he : s.executors e = .running) :
      StepTo s (.loopReturned e)
        { s with executors := Function.update s.executors e .returned }
  | finish {e : ExecutorId} {woken : Option ThreadId} {t : AmqpServer}
      (he : s.executors e = .returned) (hfinish : s.finish e woken = some t) :
      StepTo s (.finish e woken) t

theorem AmqpServer.step_to {s t : AmqpServer} {a : ServerAct} (h : s.step a = some t) :
    s.StepTo a t := by
  cases a with
  | insert service =>
    obtain ⟨ho,⟨⟩⟩ := Option.ite_none_right_eq_some.mp h
    exact .insert service ho
  | remove service =>
    obtain ⟨ho,⟨⟩⟩ := Option.ite_none_right_eq_some.mp h
    exact .remove service ho
  | start =>
    obtain ⟨ho,⟨⟩⟩ := Option.ite_none_right_eq_some.mp h
    exact .start ho
  | stop =>
    obtain ⟨ho,⟨⟩⟩ := Option.ite_none_right_eq_some.mp h
    exact .stop ho
  | join thread =>
    simp only [AmqpServer.step] at h
    split at h
    case h_1 hcall =>
      obtain ⟨ho,⟨⟩⟩ := Option.ite_none_right_eq_some.mp h
      exact .join ho hcall
    case h_2 hcall =>
      obtain ⟨hmu,⟨⟩⟩ := Option.ite_none_right_eq_some.mp h
      exact .joinLast (Option.isNone_iff_eq_none.mp hmu) hcall
    case h_3 => cases h
  | destroy thread =>
    obtain ⟨ho,⟨⟩⟩ := Option.ite_none_right_eq_some.mp h
    rw [Bool.and_eq_true,decide_eq_true_eq] at ho
    exact .destroy ho.1 ho.2
  | joinTest thread =>
    simp only [AmqpServer.step] at h
    split at h
    case h_1 d hj => exact Option.some.inj h ▸ .joinTest hj
    case h_2 => cases h
  | loopReturned e =>
    obtain ⟨he,⟨⟩⟩ := Option.ite_none_right_eq_some.mp h
    exact .loopReturned he
  | finish e woken =>
    obtain ⟨he,h⟩ := Option.ite_none_right_eq_some.mp h
    exact .finish he h

end MprMq.Server
