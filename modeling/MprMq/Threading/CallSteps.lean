import MprMq.Threading.StepFrames
set_option autoImplicit false

/-! How the calls of the threads go on, whatever else a step does. -/

namespace MprMq.Threading
open MprMq.Lib

/-- The step of a thread in a call: from where it gets where. -/
inductive CallStep : Act → ThreadId → CallPhase → CallPhase → Prop where
  | start (u : ThreadId) : CallStep (.start u) u .none .none
  | addWorker (u : ThreadId) (ids : List ThreadId) :
      CallStep (.addWorker u ids) u .none (.starting ids)
  | startThread (u w : ThreadId) (rest : List ThreadId) :
      CallStep (.startThread u) u (.starting (w :: rest)) (.mapping w rest)
  | mapThread (u w : ThreadId) (rest : List ThreadId) :
      CallStep (.mapThread u) u (.mapping w rest) (.starting rest)
  | grow {u : ThreadId} {p : CallPhase} (hp : p = .starting [] ∨ p = .growing) :
      CallStep (.addWorkerTest u) u p .growing
  | grown {u : ThreadId} {p : CallPhase} (hp : p = .starting [] ∨ p = .growing) :
      CallStep (.addWorkerTest u) u p .none
  | refuse (u : ThreadId) (value : Nat) (woken : List (Option ThreadId)) :
      CallStep (.removeWorker u value woken) u .none .none
  | remove (u : ThreadId) (value : Nat) (woken : List (Option ThreadId)) :
      CallStep (.removeWorker u value woken) u .none (.removing none)
  | removing (u : ThreadId) (stop : Option Bool) :
      CallStep (.removeWorkerTest u) u (.removing stop) (.removing stop)
  | removed (u : ThreadId) : CallStep (.removeWorkerTest u) u (.removing none) .none
  | stopRemoved (u : ThreadId) (join : Bool) :
      CallStep (.removeWorkerTest u) u (.removing (some join)) (.stopLast join true)
  | stopped (u : ThreadId) (join : Bool) : CallStep (.stop u join) u .none .none
  | stop (u : ThreadId) (join : Bool) : CallStep (.stop u join) u .none (.stopping join)
  | stopFirst (u : ThreadId) (join : Bool) :
      CallStep (.stopSection u) u (.stopping join) (.stopReading join)
  | stopAgain (u : ThreadId) (join : Bool) :
      CallStep (.stopSection u) u (.stopping join) (.stopLast join false)
  | stopRead (u : ThreadId) (join : Bool) (value : Nat) :
      CallStep (.stopRead u) u (.stopReading join) (.stopRemoving join value)
  | stopRefuse (u : ThreadId) (join : Bool) (value : Nat) (woken : List (Option ThreadId)) :
      CallStep (.stopRemove u woken) u (.stopRemoving join value) .none
  | stopRemove (u : ThreadId) (join : Bool) (value : Nat) (woken : List (Option ThreadId)) :
      CallStep (.stopRemove u woken) u (.stopRemoving join value) (.removing (some join))
  | stopLast (u : ThreadId) (join doStop : Bool) :
      CallStep (.stopLast u) u (.stopLast join doStop) .none
  | add (u : ThreadId) (runnable : RunnableId) (timeout expiration now created : Int)
      (locked : Bool) (woken : Option ThreadId) :
      CallStep (.add u runnable timeout expiration now created locked woken) u .none .none
  | addWait (u : ThreadId) (runnable : RunnableId) (timeout expiration now created : Int)
      (locked : Bool) (woken : Option ThreadId) :
      CallStep (.add u runnable timeout expiration now created locked woken) u .none
        (.adding runnable timeout expiration)
  | addResume (u : ThreadId) (runnable : RunnableId) (timeout expiration created : Int)
      (woken : Option ThreadId) :
      CallStep (.addResume u created woken) u (.adding runnable timeout expiration) .none
  | addWaitOn (u : ThreadId) (runnable : RunnableId) (timeout expiration created : Int)
      (woken : Option ThreadId) :
      CallStep (.addResume u created woken) u (.adding runnable timeout expiration)
        (.adding runnable timeout expiration)
  | addTimeout (u : ThreadId) (runnable : RunnableId) (timeout expiration : Int) :
      CallStep (.addTimeout u) u (.adding runnable timeout expiration) .none
  | removeNextPending (u : ThreadId) : CallStep (.removeNextPending u) u .none .none

namespace ThreadManager

def CallsTo (s : ThreadManager) (a : Act) (t : ThreadManager) : Prop :=
  t.call = s.call ∨ ∃ u p, t.call = Function.update s.call u p ∧ CallStep a u (s.call u) p

theorem CallsTo.move {s t : ThreadManager} {a : Act} {u : ThreadId} {p q : CallPhase}
    (hu : s.call u = p) (hcall : t.call = Function.update s.call u q) (h : CallStep a u p q) :
    CallsTo s a t := .inr ⟨u,q,hcall,hu ▸ h⟩

theorem start_calls {s t : ThreadManager} {u : ThreadId} (hu : s.call u = .none)
    (h : s.start u = some t) : CallsTo s (.start u) t := by
  obtain ⟨-,rfl⟩ | rfl | rfl := start_cases h
  · exact .move hu rfl (.start u)
  · exact .move hu rfl (.start u)
  · exact .move hu rfl (.start u)

theorem addWorkerTest_calls {s : ThreadManager} {u : ThreadId}
    (hu : s.call u = .starting [] ∨ s.call u = .growing) :
    CallsTo s (.addWorkerTest u) (s.addWorkerTest u) := by
  unfold addWorkerTest
  split
  · exact .move rfl rfl (.grow hu)
  · exact .move rfl rfl (.grown hu)

theorem removeWorkerTest_calls {s : ThreadManager} {u : ThreadId} {stop : Option Bool}
    (hu : s.call u = .removing stop) :
    CallsTo s (.removeWorkerTest u) (s.removeWorkerTest u stop) := by
  unfold removeWorkerTest
  split
  · exact .inl rfl
  · cases stop with
    | none => exact .move hu rfl (.removed u)
    | some join => exact .move hu rfl (.stopRemoved u join)

theorem removeWorker_calls {s t : ThreadManager} {a : Act} {u : ThreadId} {p : CallPhase}
    {value : Nat} {stop : Option Bool} {woken : List (Option ThreadId)} (hu : s.call u = p)
    (hrefuse : CallStep a u p .none) (hremove : CallStep a u p (.removing stop))
    (h : s.removeWorker u value stop woken = some t) : CallsTo s a t := by
  obtain ⟨-,rfl⟩ | ⟨-,m,-,rfl⟩ := removeWorker_cases h
  · exact .move hu rfl hrefuse
  · exact .move hu rfl hremove

theorem stop_calls {s : ThreadManager} {u : ThreadId} (hu : s.call u = .none) (join : Bool) :
    CallsTo s (.stop u join) (s.stop u join) := by
  unfold stop
  split
  · exact .move hu rfl (.stopped u join)
  · exact .move hu rfl (.stop u join)

theorem stopSection_calls {s : ThreadManager} {u : ThreadId} {join : Bool}
    (hu : s.call u = .stopping join) : CallsTo s (.stopSection u) (s.stopSection u join) := by
  unfold stopSection
  split
  · exact .move hu rfl (.stopFirst u join)
  · exact .move hu rfl (.stopAgain u join)

theorem addTest_calls {s t : ThreadManager} {u : ThreadId} {runnable : RunnableId}
    {timeout expiration created : Int} {woken : Option ThreadId}
    (h : s.addTest u runnable timeout expiration created woken = some t) :
    t.call = Function.update s.call u (.adding runnable timeout expiration) ∨
      t.call = Function.update s.call u .none := by
  obtain ⟨-,rfl⟩ | ⟨-,hpush⟩ := addTest_cases h
  · exact .inl rfl
  · obtain ⟨m,rfl,-⟩ := push_cases hpush
    exact .inr rfl

theorem add_calls {s t : ThreadManager} {u : ThreadId} {runnable : RunnableId}
    {timeout expiration now created : Int} {locked : Bool} {woken : Option ThreadId}
    (hu : s.call u = .none)
    (h : s.add u runnable timeout expiration now created locked woken = some t) :
    CallsTo s (.add u runnable timeout expiration now created locked woken) t := by
  obtain ⟨-,rfl⟩ | ⟨-,-,rfl⟩ | ⟨-,-,-,rfl⟩ | ⟨-,-,h⟩ := add_cases h
  · exact .move hu rfl (.add u ..)
  · exact .move hu rfl (.add u ..)
  · exact .move hu rfl (.add u ..)
  · obtain hcall | hcall := addTest_calls h
    · exact .move hu hcall (.addWait u ..)
    · exact .move hu hcall (.add u ..)

theorem take_calls {s t : ThreadManager} {w : ThreadId} {now : Int} {woken : Option ThreadId}
    (h : s.take w now woken = some t) : t.call = s.call := by
  obtain ⟨-,⟨-,rfl⟩ | ⟨-,-,rfl⟩ | ⟨-,-,htask⟩⟩ := take_cases h
  · rfl
  · rfl
  · obtain ⟨u,m,rfl,⟨-,rfl⟩ | ⟨task,rest,-,rfl⟩,-⟩ := takeTask_cases htask <;> rfl

/-- Every step moves the call of one thread at most. -/
theorem calls_step {s t : ThreadManager} {a : Act} (h : s.step a = some t) : CallsTo s a t := by
  cases step_to h with
  | setThreadFactory | removeExpiredTasks | setPendingTaskCountMax | setExpireCallback
  | expiredTaskCount | notifyManager | finish => exact .inl rfl
  | start hcan hstart => exact start_calls (call_of_canCall hcan) hstart
  | addWorker hcan => exact .move (call_of_canCall hcan) rfl (.addWorker _ _)
  | startThread hu =>
    refine .move hu ?_ (.startThread _ _ _)
    unfold startThread
    split <;> rfl
  | mapThread hu => exact .move hu rfl (.mapThread _ _ _)
  | addWorkerTest hu => exact addWorkerTest_calls hu
  | removeWorker hcan hremove =>
    exact removeWorker_calls (call_of_canCall hcan) (.refuse _ _ _) (.remove _ _ _) hremove
  | removeWorkerTest hu => exact removeWorkerTest_calls hu
  | stop join hcan => exact stop_calls (call_of_canCall hcan) join
  | stopSection hu => exact stopSection_calls hu
  | stopRead hu => exact .move hu rfl (.stopRead _ _ _)
  | stopRemove hu hremove =>
    exact removeWorker_calls hu (.stopRefuse _ _ _ _) (.stopRemove _ _ _ _) hremove
  | stopLast hu => exact .move hu rfl (.stopLast _ _ _)
  | add hcan hadd => exact add_calls (call_of_canCall hcan) hadd
  | addResume hu htest =>
    obtain hcall | hcall := addTest_calls htest
    · exact .move hu hcall (.addWaitOn ..)
    · exact .move hu hcall (.addResume ..)
  | addTimeout hu => exact .move hu rfl (.addTimeout _ _ _ _)
  | @removeNextPending u hcan =>
    refine .move (call_of_canCall hcan) (q := .none) ?_ (.removeNextPending u)
    obtain ⟨-,heq⟩ | ⟨-,heq⟩ | ⟨task,rest,-,heq⟩ := s.removeNextPending_cases u <;> rw [heq] <;> rfl
  | enter =>
    refine .inl ?_
    unfold enter
    split <;> rfl
  | take htake => exact .inl (take_calls htake)
  | exit _ hexit =>
    obtain ⟨m,rfl⟩ := exit_cases hexit
    exact .inl rfl

/-- A thread's call stays as it is or goes on. -/
theorem call_step {s t : ThreadManager} {a : Act} (h : s.step a = some t) (u : ThreadId) :
    t.call u = s.call u ∨ CallStep a u (s.call u) (t.call u) := by
  obtain hcall | ⟨v,p,hcall,hstep⟩ := calls_step h
  · exact .inl (congrFun hcall u)
  · by_cases he : u = v
    · subst he
      rw [hcall,Function.update_self]
      exact .inr hstep
    · exact .inl (by rw [hcall,Function.update_of_ne he])

end ThreadManager
end MprMq.Threading
