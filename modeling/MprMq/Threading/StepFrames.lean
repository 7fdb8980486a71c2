import MprMq.Threading.WorkerSteps
set_option autoImplicit false

namespace MprMq.Threading
open MprMq.Lib

def Act.onQueue : Act → Bool
  | .add .. | .addResume .. | .addTimeout .. | .removeNextPending .. | .removeExpiredTasks ..
  | .setPendingTaskCountMax .. | .take .. | .finish .. => true
  | _ => false

def Event.isCall : Event → Bool
  | .returned .. | .threw .. => true
  | _ => false

def CallPhase.inAdd : CallPhase → Bool
  | .adding .. => true
  | _ => false

/-- How a worker gets on outside its loop. -/
inductive WorkerPhase.Hop : WorkerPhase → WorkerPhase → Prop where
  | create : Hop .absent .created
  | begin : Hop .created .entering
  | tell : Hop .entering .notifying
  | enter : Hop .entering .looping
  | late : Hop .entering (.leaving false)
  | told : Hop .notifying .looping
  | over (b : Bool) : Hop (.leaving b) .finished

theorem WorkerPhase.Hop.staying {p q : WorkerPhase} (h : p.Hop q) (hp : p.staying = true) :
    q.staying = true := by
  cases h <;> first | rfl | cases hp

theorem WorkerPhase.Hop.executing {p q : WorkerPhase} (h : p.Hop q) (task : Task) :
    p ≠ .executing task ∧ q ≠ .executing task := by
  cases h <;> simp

namespace ThreadManager

structure QueueFrame (s t : ThreadManager) : Prop where
  tasks : t.tasks = s.tasks
  nextTask : t.nextTask = s.nextTask
  limit : t.pendingTaskCountMax = s.pendingTaskCountMax
  maxMonitor : t.maxMonitor = s.maxMonitor
  monitor : ∀ w ∈ t.monitor, w ∈ s.monitor
  log : ∃ es, t.log = s.log ++ es ∧ ∀ e ∈ es, e.isCall = true
  inAdd : ∀ u p, p.inAdd = true → (t.call u = p ↔ s.call u = p)
  phase : ∀ w, t.phase w = s.phase w ∨ (s.phase w).Hop (t.phase w)

theorem QueueFrame.of_call {s t : ThreadManager} {u : ThreadId} {p : CallPhase} {l : List Event}
    (htasks : t.tasks = s.tasks ∧ t.nextTask = s.nextTask ∧
      t.pendingTaskCountMax = s.pendingTaskCountMax ∧ t.maxMonitor = s.maxMonitor)
    (hmonitor : ∀ w ∈ t.monitor, w ∈ s.monitor) (hlog : t.log = s.log ++ l)
    (hes : ∀ e ∈ l, e.isCall = true) (hcall : t.call = Function.update s.call u p)
    (hold : (s.call u).inAdd = false) (hnew : p.inAdd = false) (hphase : t.phase = s.phase) :
    QueueFrame s t where
  tasks := htasks.1
  nextTask := htasks.2.1
  limit := htasks.2.2.1
  maxMonitor := htasks.2.2.2
  monitor := hmonitor
  log := ⟨l,hlog,hes⟩
  inAdd := fun v q hq => by
    rw [hcall]
    exact update_outside hold hnew v hq
  phase := fun w => .inl (by rw [hphase])

theorem QueueFrame.of_phase {s t : ThreadManager}
    (htasks : t.tasks = s.tasks ∧ t.nextTask = s.nextTask ∧
      t.pendingTaskCountMax = s.pendingTaskCountMax ∧ t.maxMonitor = s.maxMonitor)
    (hmonitor : t.monitor = s.monitor) (hlog : t.log = s.log) (hcall : t.call = s.call)
    (hphase : ∀ w, t.phase w = s.phase w ∨ (s.phase w).Hop (t.phase w)) : QueueFrame s t where
  tasks := htasks.1
  nextTask := htasks.2.1
  limit := htasks.2.2.1
  maxMonitor := htasks.2.2.2
  monitor := fun w hw => hmonitor ▸ hw
  log := ⟨[],by simp [hlog],by simp⟩
  inAdd := fun u p _ => by rw [hcall]
  phase := hphase

theorem hop_update {s : ThreadManager} {w : ThreadId} {p q : WorkerPhase} (hw : s.phase w = p)
    (hop : p.Hop q) (v : ThreadId) : Function.update s.phase w q v = s.phase v ∨
      (s.phase v).Hop (Function.update s.phase w q v) := by
  by_cases he : v = w
  · subst he
    rw [Function.update_self,hw]
    exact .inr hop
  · exact .inl (Function.update_of_ne he _ _)

theorem QueueFrame.goto {s t : ThreadManager} (h : QueueFrame s t) {u : ThreadId}
    {p : CallPhase} (hold : (s.call u).inAdd = false) (hnew : p.inAdd = false) :
    QueueFrame s (t.goto u p) where
  tasks := h.tasks
  nextTask := h.nextTask
  limit := h.limit
  maxMonitor := h.maxMonitor
  monitor := h.monitor
  log := h.log
  inAdd := fun v q hq => by
    have hout : (t.call u).inAdd = false := by
      by_contra hin
      have hu : s.call u = t.call u := (h.inAdd u _ (by simpa using hin)).mp rfl
      exact hin (hu ▸ hold)
    exact (update_outside hout hnew v hq).trans (h.inAdd v q hq)
  phase := h.phase

theorem call_of_canCall {s : ThreadManager} {u : ThreadId} (h : s.canCall u = true) :
    s.call u = .none := by
  simp only [canCall,Bool.and_eq_true,decide_eq_true_eq] at h
  exact h.1

theorem inAdd_of_canCall {s : ThreadManager} {u : ThreadId} (h : s.canCall u = true) :
    (s.call u).inAdd = false := by
  rw [call_of_canCall h]
  rfl

theorem wakeForRemoval_subset {s : ThreadManager} {value : Nat}
    {woken : List (Option ThreadId)} {m : Waiters ThreadId}
    (h : s.wakeForRemoval value woken = some m) : ∀ w ∈ m, w ∈ s.monitor := by
  unfold wakeForRemoval at h
  split at h
  · obtain ⟨-,h⟩ := Option.ite_none_right_eq_some.mp h
    exact Waiters.notifyEach_subset h
  · obtain rfl := Option.some.inj h
    exact fun w hw => by cases hw

theorem removeWorker_frame {s t : ThreadManager} {u : ThreadId} {value : Nat}
    {stop : Option Bool} {woken : List (Option ThreadId)} (hold : (s.call u).inAdd = false)
    (h : s.removeWorker u value stop woken = some t) : QueueFrame s t := by
  obtain ⟨-,rfl⟩ | ⟨-,m,hm,rfl⟩ := removeWorker_cases h
  · exact .of_call ⟨rfl,rfl,rfl,rfl⟩ (fun _ hw => hw) rfl (by simp [Event.isCall]) rfl hold rfl rfl
  · exact .of_call (l := []) ⟨rfl,rfl,rfl,rfl⟩ (wakeForRemoval_subset hm) (by simp [goto])
      (by simp) rfl hold rfl rfl

theorem start_frame {s t : ThreadManager} {u : ThreadId} (hold : (s.call u).inAdd = false)
    (h : s.start u = some t) : QueueFrame s t := by
  obtain ⟨-,rfl⟩ | rfl | rfl := start_cases h
  · exact .of_call ⟨rfl,rfl,rfl,rfl⟩ (fun _ hw => by cases hw) rfl (by simp [Event.isCall]) rfl
      hold rfl rfl
  · exact .of_call ⟨rfl,rfl,rfl,rfl⟩ (fun _ hw => hw) rfl (by simp [Event.isCall]) rfl hold rfl rfl
  · exact .of_call ⟨rfl,rfl,rfl,rfl⟩ (fun _ hw => hw) rfl (by simp [Event.isCall]) rfl hold rfl rfl

theorem exit_frame {s t : ThreadManager} {w : ThreadId} {b : Bool} {woken : Option ThreadId}
    (hw : s.phase w = .leaving b) (h : s.exit w woken = some t) : QueueFrame s t := by
  obtain ⟨m,rfl⟩ := exit_cases h
  exact .of_phase ⟨rfl,rfl,rfl,rfl⟩ rfl rfl rfl (hop_update hw (.over b))

theorem enter_frame {s : ThreadManager} {w : ThreadId} (hw : s.phase w = .entering) :
    QueueFrame s (s.enter w) := by
  unfold enter
  split
  · refine .of_phase ⟨rfl,rfl,rfl,rfl⟩ rfl rfl rfl (hop_update hw ?_)
    split
    · exact .tell
    · exact .enter
  · exact .of_phase ⟨rfl,rfl,rfl,rfl⟩ rfl rfl rfl (hop_update hw .late)

theorem startThread_frame (s : ThreadManager) (w : ThreadId) :
    QueueFrame s (s.startThread w) := by
  unfold startThread
  split
  case isTrue hw => exact .of_phase ⟨rfl,rfl,rfl,rfl⟩ rfl rfl rfl (hop_update hw .begin)
  case isFalse => exact .of_phase ⟨rfl,rfl,rfl,rfl⟩ rfl rfl rfl (fun _ => .inl rfl)

theorem addWorkerTest_frame {s : ThreadManager} {u : ThreadId} (hold : (s.call u).inAdd = false) :
    QueueFrame s (s.addWorkerTest u) := by
  unfold addWorkerTest
  split
  · exact .of_call (l := []) ⟨rfl,rfl,rfl,rfl⟩ (fun _ hw => hw) (by simp [ThreadManager.goto])
      (by simp) rfl hold rfl rfl
  · exact .of_call ⟨rfl,rfl,rfl,rfl⟩ (fun _ hw => hw) rfl (by simp [Event.isCall]) rfl hold rfl rfl

theorem removeWorkerTest_frame {s : ThreadManager} {u : ThreadId} {stop : Option Bool}
    (hu : s.call u = .removing stop) : QueueFrame s (s.removeWorkerTest u stop) := by
  have hold : (s.call u).inAdd = false := by rw [hu]; rfl
  unfold removeWorkerTest
  split
  · exact .of_phase ⟨rfl,rfl,rfl,rfl⟩ rfl rfl rfl (fun _ => .inl rfl)
  · split
    · exact .of_call ⟨rfl,rfl,rfl,rfl⟩ (fun _ hw => hw) rfl (by simp [Event.isCall]) rfl hold rfl
        rfl
    · exact .of_call (l := []) ⟨rfl,rfl,rfl,rfl⟩ (fun _ hw => hw) (by simp [ThreadManager.goto])
        (by simp) rfl hold rfl rfl

theorem stop_frame {s : ThreadManager} {u : ThreadId} (hold : (s.call u).inAdd = false)
    (join : Bool) : QueueFrame s (s.stop u join) := by
  unfold stop
  split
  · exact .of_call ⟨rfl,rfl,rfl,rfl⟩ (fun _ hw => hw) rfl (by simp [Event.isCall]) rfl hold rfl rfl
  · exact .of_call (l := []) ⟨rfl,rfl,rfl,rfl⟩ (fun _ hw => hw) (by simp [ThreadManager.goto])
      (by simp) rfl hold rfl rfl

theorem stopSection_frame {s : ThreadManager} {u : ThreadId} {join : Bool}
    (hu : s.call u = .stopping join) : QueueFrame s (s.stopSection u join) := by
  have hold : (s.call u).inAdd = false := by rw [hu]; rfl
  unfold stopSection
  split <;> exact .of_call (l := []) ⟨rfl,rfl,rfl,rfl⟩ (fun _ hw => hw)
    (by simp [ThreadManager.goto]) (by simp) rfl hold rfl rfl

/-- The other steps leave the queue and its tasks alone. -/
theorem queue_frame {s t : ThreadManager} {a : Act} (ha : a.onQueue = false)
    (h : s.step a = some t) : QueueFrame s t := by
  cases step_to h with
  | add | addResume | addTimeout | removeNextPending | removeExpiredTasks
  | setPendingTaskCountMax | take | finish => cases ha
  | setThreadFactory | setExpireCallback | expiredTaskCount =>
    exact .of_phase ⟨rfl,rfl,rfl,rfl⟩ rfl rfl rfl (fun _ => .inl rfl)
  | start hcan hstart => exact start_frame (inAdd_of_canCall hcan) hstart
  | @addWorker _ ids hcan _ _ _ hnew =>
    refine QueueFrame.goto (t := { s with
      workerMaxCount := s.workerMaxCount+ids.length
      workers := s.workers ++ ids
      threads := s.threads ++ ids
      phase := fun w => if w ∈ ids then .created else s.phase w }) ?_ (inAdd_of_canCall hcan) rfl
    refine .of_phase ⟨rfl,rfl,rfl,rfl⟩ rfl rfl rfl (fun w => ?_)
    by_cases hw : w ∈ ids
    · simp only [hw,if_true,(hnew w hw).1]
      exact .inr .create
    · exact .inl (if_neg hw)
  | startThread hu => exact (startThread_frame s _).goto (by rw [hu]; rfl) rfl
  | mapThread hu =>
    exact .of_call (l := []) ⟨rfl,rfl,rfl,rfl⟩ (fun _ hw => hw) (by simp [ThreadManager.goto])
      (by simp) rfl (by rw [hu]; rfl) rfl rfl
  | addWorkerTest hu =>
    refine addWorkerTest_frame ?_
    obtain hu | hu := hu <;> rw [hu] <;> rfl
  | removeWorker hcan hremove => exact removeWorker_frame (inAdd_of_canCall hcan) hremove
  | removeWorkerTest hu => exact removeWorkerTest_frame hu
  | stop join hcan => exact stop_frame (inAdd_of_canCall hcan) join
  | stopSection hu => exact stopSection_frame hu
  | stopRead hu =>
    exact .of_call (l := []) ⟨rfl,rfl,rfl,rfl⟩ (fun _ hw => hw) (by simp [ThreadManager.goto])
      (by simp) rfl (by rw [hu]; rfl) rfl rfl
  | stopRemove hu hremove => exact removeWorker_frame (by rw [hu]; rfl) hremove
  | stopLast hu =>
    exact .of_call ⟨rfl,rfl,rfl,rfl⟩ (fun _ hw => hw) rfl (by simp [Event.isCall]) rfl
      (by rw [hu]; rfl) rfl rfl
  | enter hw => exact enter_frame hw
  | notifyManager hw =>
    exact .of_phase ⟨rfl,rfl,rfl,rfl⟩ rfl rfl rfl (hop_update hw .told)
  | exit hw hexit => exact exit_frame hw hexit

theorem addTest_phase {s t : ThreadManager} {u : ThreadId} {runnable : RunnableId}
    {timeout expiration created : Int} {woken : Option ThreadId}
    (h : s.addTest u runnable timeout expiration created woken = some t) : t.phase = s.phase := by
  obtain ⟨-,rfl⟩ | ⟨-,hpush⟩ := addTest_cases h
  · rfl
  · obtain ⟨m,rfl,-⟩ := push_cases hpush
    rfl

theorem add_phase {s t : ThreadManager} {u : ThreadId} {runnable : RunnableId}
    {timeout expiration now created : Int} {locked : Bool} {woken : Option ThreadId}
    (h : s.add u runnable timeout expiration now created locked woken = some t) :
    t.phase = s.phase := by
  obtain ⟨-,rfl⟩ | ⟨-,-,rfl⟩ | ⟨-,-,-,rfl⟩ | ⟨-,-,h⟩ := add_cases h
  · rfl
  · rfl
  · rfl
  · exact addTest_phase (s := s.removeExpiredTasks now) h

theorem removeNextPending_phase (s : ThreadManager) (u : ThreadId) :
    (s.removeNextPending u).phase = s.phase := by
  obtain ⟨-,heq⟩ | ⟨-,heq⟩ | ⟨task,rest,-,heq⟩ := s.removeNextPending_cases u <;> rw [heq] <;> rfl

/-- A worker in its loop that is not inactive goes on in it. -/
theorem take_active_phase {s t : ThreadManager} {w : ThreadId} {now : Int}
    {woken : Option ThreadId} (hactive : s.isActive = true) (h : s.take w now woken = some t) :
    ∃ p : WorkerPhase, t.phase = Function.update s.phase w p ∧ p.staying = true := by
  obtain ⟨-,⟨hno,-⟩ | ⟨-,-,rfl⟩ | ⟨-,-,htask⟩⟩ := take_cases h
  · rw [hno] at hactive
    cases hactive
  · exact ⟨.waiting,rfl,rfl⟩
  · obtain ⟨u,m,rfl,⟨-,rfl⟩ | ⟨task,rest,-,rfl⟩,-⟩ := takeTask_cases htask
    · exact ⟨.looping,rfl,rfl⟩
    · exact ⟨.executing task.take,rfl,rfl⟩

/-- A worker in its loop leaves it where it finds itself inactive, and nowhere else. -/
theorem stays {s t : ThreadManager} {a : Act} (h : s.step a = some t) {w : ThreadId}
    (hw : (s.phase w).staying = true) : (t.phase w).staying = true ∨
      (s.isActive = false ∧ ∃ now woken, a = .take w now woken) := by
  have hmove : ∀ {v : ThreadId} {p : WorkerPhase}, p.staying = true →
      (Function.update s.phase v p w).staying = true := by
    intro v p hp
    obtain rfl | he := eq_or_ne w v
    · rwa [Function.update_self]
    · rwa [Function.update_of_ne he]
  by_cases hqueue : a.onQueue = false
  · obtain heq | hop := (queue_frame hqueue h).phase w
    · exact .inl (heq ▸ hw)
    · exact .inl (hop.staying hw)
  cases step_to h with
  | removeExpiredTasks | setPendingTaskCountMax | addTimeout => exact .inl hw
  | add _ hadd => exact .inl (add_phase hadd ▸ hw)
  | addResume _ htest => exact .inl (addTest_phase htest ▸ hw)
  | removeNextPending => exact .inl (removeNextPending_phase s _ ▸ hw)
  | finish => exact .inl (hmove rfl)
  | @take v now woken _ htake =>
    cases hactive : s.isActive with
    | true =>
      obtain ⟨p,hphase,hp⟩ := take_active_phase hactive htake
      rw [hphase]
      exact .inl (hmove hp)
    | false =>
      obtain ⟨-,⟨-,rfl⟩ | ⟨hyes,-⟩ | ⟨hyes,-⟩⟩ := take_cases htake
      · by_cases he : w = v
        · exact .inr ⟨rfl,now,woken,by rw [he]⟩
        · refine .inl ?_
          simp only [move,awake,Function.update_of_ne he]
          exact hw
      · rw [hactive] at hyes
        cases hyes
      · rw [hactive] at hyes
        cases hyes
  | _ => exact absurd rfl hqueue

end ThreadManager
end MprMq.Threading
