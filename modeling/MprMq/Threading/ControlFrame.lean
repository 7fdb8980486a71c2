import MprMq.Threading.StepFrames
set_option autoImplicit false

/-! What steps leave alone of the state, of a removal of workers under way, and of the
number of workers there are to be. -/

namespace MprMq.Threading
open MprMq.Lib

def Act.onStop : Act → Bool
  | .removeWorker .. | .removeWorkerTest .. | .stopSection .. | .stopRead .. | .stopRemove ..
  | .stopLast .. => true
  | _ => false

def Act.onGrow : Act → Bool
  | .addWorker .. => true
  | _ => false

def CallPhase.engaged : CallPhase → Bool
  | .removing _ | .stopReading _ | .stopRemoving _ _ | .stopLast _ _ => true
  | _ => false

def Event.stopFailure : Event → Bool
  | .threw _ .stop _ | .threw _ .join _ => true
  | _ => false

def Event.ofStop : Event → Bool
  | .returned _ .removeWorker | .returned _ .stop | .returned _ .join
  | .threw _ .removeWorker _ | .threw _ .stop _ | .threw _ .join _ => true
  | _ => false

def Event.ends : Event → Option ThreadId
  | .returned t _ | .threw t _ _ => some t
  | _ => none

theorem Event.stopFailure_of_ofStop {e : Event} (h : e.ofStop = false) :
    e.stopFailure = false := by
  cases e with
  | threw u m x => cases m <;> first | rfl | cases h
  | _ => rfl

theorem Event.of_task {e : Event} (h : e.isCall = false) :
    e.stopFailure = false ∧ e.ofStop = false ∧ e.ends = none := by
  cases e <;> first | exact ⟨rfl,rfl,rfl⟩ | cases h

namespace ThreadManager

structure ControlFrame (s t : ThreadManager) : Prop where
  state : t.state = s.state ∨ s.state = .uninitialized ∧ t.state = .started
  engaged : ∀ u p, p.engaged = true → (t.call u = p ↔ s.call u = p)
  log : ∃ es, t.log = s.log ++ es ∧ ∀ e ∈ es, e.stopFailure = false ∧
    (e.ofStop = true → s.state = .stopped) ∧ ∀ u, e.ends = some u → (s.call u).engaged = false

theorem ControlFrame.of_log {s t : ThreadManager} {l : List Event} (hstate : t.state = s.state)
    (hcall : t.call = s.call) (hlog : t.log = s.log ++ l)
    (hes : ∀ e ∈ l, e.isCall = false) : ControlFrame s t where
  state := .inl hstate
  engaged := fun u p _ => by rw [hcall]
  log := ⟨l,hlog,fun e he => by
    obtain ⟨hfail,hstop,hends⟩ := Event.of_task (hes e he)
    simp [hfail,hstop,hends]⟩

theorem ControlFrame.of_eq {s t : ThreadManager} (hstate : t.state = s.state)
    (hcall : t.call = s.call) (hlog : t.log = s.log) : ControlFrame s t :=
  .of_log (l := []) hstate hcall (by simp [hlog]) (by simp)

/-- A thread outside these sections goes on in its call, or ends it. -/
theorem ControlFrame.of_call {s t : ThreadManager} {u : ThreadId} {p : CallPhase}
    {l : List Event} (hstate : t.state = s.state ∨ s.state = .uninitialized ∧ t.state = .started)
    (hcall : t.call = Function.update s.call u p) (hlog : t.log = s.log ++ l)
    (hold : (s.call u).engaged = false) (hnew : p.engaged = false)
    (hes : ∀ e ∈ l, e.isCall = true → e.stopFailure = false ∧
      (e.ofStop = true → s.state = .stopped) ∧ e.ends = some u) : ControlFrame s t where
  state := hstate
  engaged := fun v q hq => by
    rw [hcall]
    exact update_outside hold hnew v hq
  log := ⟨l,hlog,fun e he => by
    cases hcalls : e.isCall with
    | false =>
      obtain ⟨hfail,hstop,hends⟩ := Event.of_task hcalls
      simp [hfail,hstop,hends]
    | true =>
      obtain ⟨hfail,hstop,hends⟩ := hes e he hcalls
      refine ⟨hfail,hstop,fun v hv => ?_⟩
      obtain rfl := Option.some.inj (hends.symm.trans hv)
      exact hold⟩

theorem ControlFrame.of_end {s t : ThreadManager} {u : ThreadId} {e : Event}
    (hstate : t.state = s.state ∨ s.state = .uninitialized ∧ t.state = .started)
    (hcall : t.call = Function.update s.call u .none) (hlog : t.log = s.log ++ [e])
    (hold : (s.call u).engaged = false) (hstop : e.ofStop = false) (hends : e.ends = some u) :
    ControlFrame s t := by
  refine .of_call hstate hcall hlog hold rfl (fun e' he _ => ?_)
  obtain rfl := List.mem_singleton.mp he
  refine ⟨Event.stopFailure_of_ofStop hstop,fun h => ?_,hends⟩
  rw [hstop] at h
  cases h

theorem engaged_of_canCall {s : ThreadManager} {u : ThreadId} (h : s.canCall u = true) :
    (s.call u).engaged = false := by
  rw [call_of_canCall h]
  rfl

theorem start_control {s t : ThreadManager} {u : ThreadId} (hold : (s.call u).engaged = false)
    (h : s.start u = some t) : ControlFrame s t := by
  obtain ⟨hstate,rfl⟩ | rfl | rfl := start_cases h
  · exact .of_end (.inr ⟨hstate,rfl⟩) rfl rfl hold rfl rfl
  · exact .of_end (.inl rfl) rfl rfl hold rfl rfl
  · exact .of_end (.inl rfl) rfl rfl hold rfl rfl

theorem stop_control {s : ThreadManager} {u : ThreadId} (hold : (s.call u).engaged = false)
    (join : Bool) : ControlFrame s (s.stop u join) := by
  unfold stop
  split
  case isTrue hstate =>
    exact .of_call (.inl rfl) rfl rfl hold rfl
      (by simp [Event.stopFailure,Event.ends,hstate])
  case isFalse => exact .of_call (l := []) (.inl rfl) rfl (by simp [goto]) hold rfl (by simp)

theorem addWorkerTest_control {s : ThreadManager} {u : ThreadId}
    (hold : (s.call u).engaged = false) : ControlFrame s (s.addWorkerTest u) := by
  unfold addWorkerTest
  split
  · exact .of_call (l := []) (.inl rfl) rfl (by simp [goto]) hold rfl (by simp)
  · exact .of_end (.inl rfl) rfl rfl hold rfl rfl

theorem startThread_control (s : ThreadManager) (w : ThreadId) :
    (s.startThread w).state = s.state ∧ (s.startThread w).call = s.call ∧
      (s.startThread w).log = s.log := by
  unfold startThread
  split <;> exact ⟨rfl,rfl,rfl⟩

/-- What expires leaves an event of its own. -/
theorem removeExpiredTasks_log (s : ThreadManager) (now : Int) :
    ∃ es, (s.removeExpiredTasks now).log = s.log ++ es ∧
      ∀ e ∈ es, e.isCall = false := by
  refine ⟨_,rfl,fun e he => ?_⟩
  obtain ⟨task,-,rfl⟩ := List.mem_map.mp he
  rfl

theorem addTest_control {s r t : ThreadManager} {u : ThreadId} {runnable : RunnableId}
    {timeout expiration created : Int} {woken : Option ThreadId}
    (hold : (s.call u).engaged = false) (hstate : r.state = s.state) (hcall : r.call = s.call)
    (hlog : ∃ es, r.log = s.log ++ es ∧ ∀ e ∈ es, e.isCall = false)
    (h : r.addTest u runnable timeout expiration created woken = some t) : ControlFrame s t := by
  obtain ⟨es,hlog,hes⟩ := hlog
  obtain ⟨-,rfl⟩ | ⟨-,hpush⟩ := addTest_cases h
  · refine .of_call (p := .adding runnable timeout expiration) (.inl hstate) ?_ hlog hold rfl ?_
    · rw [← hcall]
      rfl
    · intro e he hcall
      rw [hes e he] at hcall
      cases hcall
  · obtain ⟨m,rfl,-⟩ := push_cases hpush
    refine .of_call (p := .none) (l := es ++ [.pushed r.nextTask,.returned u .add])
      (.inl hstate) ?_ ?_ hold rfl ?_
    · rw [← hcall]
      rfl
    · simp [pushed,ret,goto,record,hlog]
    · intro e he hcall
      obtain he | he := List.mem_append.mp he
      · rw [hes e he] at hcall
        cases hcall
      · simp only [List.mem_cons,List.not_mem_nil,or_false] at he
        obtain rfl | rfl := he
        · cases hcall
        · simp [Event.stopFailure,Event.ofStop,Event.ends]

theorem add_control {s t : ThreadManager} {u : ThreadId} {runnable : RunnableId}
    {timeout expiration now created : Int} {locked : Bool} {woken : Option ThreadId}
    (hold : (s.call u).engaged = false)
    (h : s.add u runnable timeout expiration now created locked woken = some t) :
    ControlFrame s t := by
  obtain ⟨-,rfl⟩ | ⟨-,-,rfl⟩ | ⟨-,-,-,rfl⟩ | ⟨-,-,h⟩ := add_cases h
  · exact .of_end (.inl rfl) rfl rfl hold rfl rfl
  · exact .of_end (.inl rfl) rfl rfl hold rfl rfl
  · obtain ⟨es,hlog,hes⟩ := s.removeExpiredTasks_log now
    refine .of_call (l := es ++ [.threw u .add .tooManyPendingTasks]) (.inl rfl) rfl ?_ hold
      rfl ?_
    · simp [throw,goto,record,hlog]
    · intro e he hcall
      obtain he | he := List.mem_append.mp he
      · rw [hes e he] at hcall
        cases hcall
      · obtain rfl := List.mem_singleton.mp he
        simp [Event.stopFailure,Event.ofStop,Event.ends]
  · exact addTest_control (r := s.removeExpiredTasks now) hold rfl rfl
      (s.removeExpiredTasks_log now) h

theorem take_control {s t : ThreadManager} {w : ThreadId} {now : Int}
    {woken : Option ThreadId} (h : s.take w now woken = some t) : ControlFrame s t := by
  obtain ⟨-,⟨-,rfl⟩ | ⟨-,-,rfl⟩ | ⟨-,-,htask⟩⟩ := take_cases h
  · exact .of_eq rfl rfl rfl
  · exact .of_eq rfl rfl rfl
  · obtain ⟨es,hlog,hes⟩ := (s.awake w).removeExpiredTasks_log now
    obtain ⟨u,m,rfl,⟨-,rfl⟩ | ⟨task,rest,-,rfl⟩,-⟩ := takeTask_cases htask <;>
      exact .of_log rfl rfl hlog hes

theorem removeNextPending_control {s : ThreadManager} {u : ThreadId}
    (hold : (s.call u).engaged = false) : ControlFrame s (s.removeNextPending u) := by
  obtain ⟨-,heq⟩ | ⟨-,heq⟩ | ⟨task,rest,-,heq⟩ := s.removeNextPending_cases u <;> rw [heq]
  · exact .of_end (.inl rfl) rfl rfl hold rfl rfl
  · exact .of_end (.inl rfl) rfl rfl hold rfl rfl
  · exact .of_call (l := [.removed task.id,.returned u .removeNextPending]) (.inl rfl) rfl
      (by simp [ret,goto,record]) hold rfl
      (by simp [Event.isCall,Event.stopFailure,Event.ofStop,Event.ends])

/-- The other steps stop no one and end no removal. -/
theorem control_frame {s t : ThreadManager} {a : Act} (ha : a.onStop = false)
    (h : s.step a = some t) : ControlFrame s t := by
  cases step_to h with
  | removeWorker | removeWorkerTest | stopSection | stopRead | stopRemove | stopLast => cases ha
  | setThreadFactory | setPendingTaskCountMax | setExpireCallback | expiredTaskCount
  | notifyManager => exact .of_eq rfl rfl rfl
  | removeExpiredTasks now =>
    obtain ⟨es,hlog,hes⟩ := s.removeExpiredTasks_log now
    exact .of_log rfl rfl hlog hes
  | start hcan hstart => exact start_control (engaged_of_canCall hcan) hstart
  | addWorker hcan =>
    exact .of_call (l := []) (.inl rfl) rfl (by simp [addWorker,goto]) (engaged_of_canCall hcan)
      rfl (by simp)
  | startThread hu =>
    obtain ⟨hstate,hcall,hlog⟩ := s.startThread_control _
    exact .of_call (l := []) (.inl hstate) (by rw [← hcall]; rfl) (by simp [goto,hlog])
      (by rw [hu]; rfl) rfl (by simp)
  | mapThread hu =>
    exact .of_call (l := []) (.inl rfl) rfl (by simp [goto]) (by rw [hu]; rfl) rfl (by simp)
  | addWorkerTest hu =>
    refine addWorkerTest_control ?_
    obtain hu | hu := hu <;> rw [hu] <;> rfl
  | stop join hcan => exact stop_control (engaged_of_canCall hcan) join
  | add hcan hadd => exact add_control (engaged_of_canCall hcan) hadd
  | addResume hu htest =>
    exact addTest_control (by rw [hu]; rfl) rfl rfl ⟨[],by simp,by simp⟩ htest
  | addTimeout hu => exact .of_end (.inl rfl) rfl rfl (by rw [hu]; rfl) rfl rfl
  | removeNextPending hcan => exact removeNextPending_control (engaged_of_canCall hcan)
  | enter =>
    unfold enter
    split <;> exact .of_eq rfl rfl rfl
  | take htake => exact take_control htake
  | finish =>
    refine .of_log rfl rfl rfl (fun e he => ?_)
    split at he
    · obtain rfl := List.mem_singleton.mp he
      rfl
    · cases he
  | exit _ hexit =>
    obtain ⟨m,rfl⟩ := exit_cases hexit
    exact .of_eq rfl rfl rfl

theorem removeWorker_state {s t : ThreadManager} {u : ThreadId} {value : Nat}
    {stop : Option Bool} {woken : List (Option ThreadId)}
    (h : s.removeWorker u value stop woken = some t) : t.state = s.state := by
  obtain ⟨-,rfl⟩ | ⟨-,m,-,rfl⟩ := removeWorker_cases h
  · rfl
  · rfl

theorem removeWorkerTest_state (s : ThreadManager) (u : ThreadId) (stop : Option Bool) :
    (s.removeWorkerTest u stop).state = s.state := by
  unfold removeWorkerTest
  split
  · rfl
  · split <;> rfl

/-- How the state of the manager changes. -/
theorem state_step {s t : ThreadManager} {a : Act} (h : s.step a = some t) :
    t.state = s.state ∨ (s.state = .uninitialized ∧ t.state = .started) ∨
      ((t.state = .joining ∨ t.state = .stopping) ∧ ∃ u, a = .stopSection u) ∨
      (t.state = .stopped ∧ ∃ u, a = .stopLast u) := by
  by_cases hstop : a.onStop = false
  · obtain hstate | hstate := (control_frame hstop h).state
    · exact .inl hstate
    · exact .inr (.inl hstate)
  cases step_to h with
  | removeWorker _ hremove => exact .inl (removeWorker_state hremove)
  | removeWorkerTest => exact .inl (removeWorkerTest_state s _ _)
  | @stopSection u join =>
    unfold stopSection
    split
    · refine .inr (.inr (.inl ⟨?_,u,rfl⟩))
      cases join
      · exact .inr rfl
      · exact .inl rfl
    · exact .inl rfl
  | stopRead => exact .inl rfl
  | stopRemove _ hremove => exact .inl (removeWorker_state hremove)
  | @stopLast u => exact .inr (.inr (.inr ⟨rfl,u,rfl⟩))
  | _ => exact absurd rfl hstop

structure CrewFrame (s t : ThreadManager) : Prop where
  threads : t.threads = s.threads
  limit : t.workerMaxCount = s.workerMaxCount

theorem CrewFrame.of_core {s t : ThreadManager} (h : t.core = s.core) : CrewFrame s t :=
  ⟨congrArg Core.threads h,congrArg Core.workerMaxCount h⟩

theorem start_crew {s t : ThreadManager} {u : ThreadId} (h : s.start u = some t) :
    CrewFrame s t := by
  obtain ⟨-,rfl⟩ | rfl | rfl := start_cases h
  · exact ⟨rfl,rfl⟩
  · exact ⟨rfl,rfl⟩
  · exact ⟨rfl,rfl⟩

theorem addTest_crew {s t : ThreadManager} {u : ThreadId} {runnable : RunnableId}
    {timeout expiration created : Int} {woken : Option ThreadId}
    (h : s.addTest u runnable timeout expiration created woken = some t) : CrewFrame s t := by
  obtain ⟨-,rfl⟩ | ⟨-,hpush⟩ := addTest_cases h
  · exact ⟨rfl,rfl⟩
  · obtain ⟨m,rfl,-⟩ := push_cases hpush
    exact ⟨rfl,rfl⟩

theorem take_crew {s t : ThreadManager} {w : ThreadId} {now : Int} {woken : Option ThreadId}
    (h : s.take w now woken = some t) : CrewFrame s t := by
  obtain ⟨-,⟨-,rfl⟩ | ⟨-,-,rfl⟩ | ⟨-,-,htask⟩⟩ := take_cases h
  · exact ⟨rfl,rfl⟩
  · exact ⟨rfl,rfl⟩
  · obtain ⟨u,m,rfl,⟨-,rfl⟩ | ⟨task,rest,-,rfl⟩,-⟩ := takeTask_cases htask <;> exact ⟨rfl,rfl⟩

/-- Only `AddWorker` and `RemoveWorker` change how many workers there are to be. -/
theorem crew_frame {s t : ThreadManager} {a : Act} (hstop : a.onStop = false)
    (hgrow : a.onGrow = false) (h : s.step a = some t) : CrewFrame s t := by
  cases step_to h with
  | removeWorker | removeWorkerTest | stopSection | stopRead | stopRemove | stopLast =>
    cases hstop
  | addWorker => cases hgrow
  | setThreadFactory | setPendingTaskCountMax | setExpireCallback | expiredTaskCount
  | removeExpiredTasks | mapThread | addTimeout | notifyManager | finish => exact ⟨rfl,rfl⟩
  | start _ hstart => exact start_crew hstart
  | startThread =>
    unfold startThread
    split <;> exact ⟨rfl,rfl⟩
  | addWorkerTest => exact .of_core (addWorkerTest_core s _)
  | stop => exact .of_core (stop_core s _ _)
  | add _ hadd =>
    obtain ⟨-,rfl⟩ | ⟨-,-,rfl⟩ | ⟨-,-,-,rfl⟩ | ⟨-,-,h⟩ := add_cases hadd
    · exact ⟨rfl,rfl⟩
    · exact ⟨rfl,rfl⟩
    · exact ⟨rfl,rfl⟩
    · obtain ⟨hthreads,hlimit⟩ := addTest_crew h
      exact ⟨hthreads,hlimit⟩
  | addResume _ htest => exact addTest_crew htest
  | removeNextPending => exact .of_core (removeNextPending_core s _)
  | enter =>
    unfold enter
    split <;> exact ⟨rfl,rfl⟩
  | take htake => exact take_crew htake
  | exit _ hexit =>
    have hcore := exit_core hexit
    exact ⟨congrArg Core.threads hcore,congrArg Core.workerMaxCount hcore⟩

end ThreadManager
end MprMq.Threading
