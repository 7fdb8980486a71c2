import MprMq.Threading.SectionCases
set_option autoImplicit false

/-! Every step of the manager is a step of the accounting of its workers, or leaves it
alone. -/

namespace MprMq.Threading
open MprMq.Lib

namespace ThreadManager

@[simp] theorem core_move (s : ThreadManager) (w : ThreadId) (p : WorkerPhase) :
    (s.move w p).core = s.core.move w p := rfl

end ThreadManager

theorem Core.Step.rest {c d : Core} (h : d = c) : c.Step d := by
  subst h
  exact Core.Step.signal (m := d.monitor) (fun _ hu => hu) id

theorem Core.Step.signalled {c d : Core} {woken : Option ThreadId} {m : Waiters ThreadId}
    (hm : c.monitor.notify woken = some m) (h : d = { c with monitor := m }) : c.Step d := by
  subst h
  exact Core.Step.signal (Waiters.notify_subset hm) (Waiters.nodup_notify hm)

namespace ThreadManager

theorem enter_core {s : ThreadManager} {w : ThreadId} (hw : s.phase w = .entering) :
    s.core.Step (s.enter w).core := by
  unfold enter
  split
  case isTrue hmax =>
    refine Core.Step.register (c := s.core) hw hmax ?_
    split
    · exact .inl rfl
    · exact .inr rfl
  case isFalse hmax => exact Core.Step.late (c := s.core) hw (Nat.not_lt.mp hmax)

theorem takeTask_core {s t : ThreadManager} {w : ThreadId} {now : Int} {woken : Option ThreadId}
    (h : s.takeTask w now woken = some t) :
    ∃ p, t.core = s.core.move w p ∧ (p = .looping ∨ ∃ task, p = .executing task) := by
  obtain ⟨u,m,rfl,⟨-,rfl⟩ | ⟨task,rest,-,rfl⟩,-⟩ := takeTask_cases h
  · exact ⟨.looping,rfl,.inl rfl⟩
  · exact ⟨.executing task.take,rfl,.inr ⟨_,rfl⟩⟩

theorem le_max_of_isActive {s : ThreadManager} (h : s.isActive = true) (ht : s.tasks = []) :
    s.workerCount ≤ s.workerMaxCount := by
  simpa [isActive,ht] using h

theorem max_lt_of_inactive {s : ThreadManager} (h : s.isActive = false) :
    s.workerMaxCount < s.workerCount := by
  simp only [isActive,Bool.or_eq_false_iff,decide_eq_false_iff_not,Nat.not_le] at h
  exact h.1

theorem awake_core {s : ThreadManager} (hs : s.core.Sound) (w : ThreadId) :
    (s.awake w).core = s.core.awake w := by
  by_cases hw : s.phase w = .waiting
  · have hw' : s.core.phase w = .waiting := hw
    simp only [awake,hw,Core.awake,hw',if_true]
    rfl
  · rw [hs.awake_eq hw]
    simp only [awake,hw,if_false]

theorem take_core {s t : ThreadManager} {w : ThreadId} {now : Int} {woken : Option ThreadId}
    (hs : s.core.Sound) (h : s.take w now woken = some t) : s.core.Step t.core := by
  have hawake := awake_core hs w
  obtain ⟨hw,⟨hinactive,rfl⟩ | ⟨hactive,hempty,rfl⟩ | ⟨-,-,htask⟩⟩ := take_cases h
  · rw [core_move,hawake]
    exact Core.Step.quit hw (max_lt_of_inactive hinactive)
  · have hstep := Core.Step.park (c := s.core) hw (le_max_of_isActive hactive hempty)
    rw [← hawake] at hstep
    exact hstep
  · obtain ⟨p,hp,hp'⟩ := takeTask_core htask
    rw [hp,hawake]
    exact Core.Step.go hw hp'

theorem exit_core {s t : ThreadManager} {w : ThreadId} {woken : Option ThreadId}
    (h : s.exit w woken = some t) : t.core = s.core.exited w := by
  obtain ⟨m,rfl⟩ := exit_cases h
  rfl

/-- `idle_count_` signals reach everyone that is parked. -/
theorem wakeForRemoval_nil {s : ThreadManager} {value : Nat} {woken : List (Option ThreadId)}
    {m : Waiters ThreadId} (hs : s.core.Sound) (h : s.wakeForRemoval value woken = some m) :
    m = [] := by
  unfold wakeForRemoval at h
  split at h
  · obtain ⟨hlen,h⟩ := Option.ite_none_right_eq_some.mp h
    exact Waiters.notifyEach_nil h (hlen ▸ hs.monitor_length)
  · exact (Option.some.inj h).symm

theorem removeWorker_core {s t : ThreadManager} {u : ThreadId} {value : Nat}
    {stop : Option Bool} {woken : List (Option ThreadId)} (hs : s.core.Sound)
    (h : s.removeWorker u value stop woken = some t) : s.core.Step t.core := by
  obtain ⟨-,rfl⟩ | ⟨hle,m,hm,rfl⟩ := removeWorker_cases h
  · exact Core.Step.rest rfl
  · obtain rfl := wakeForRemoval_nil hs hm
    exact Core.Step.lower (c := s.core) hle

theorem push_core {s t : ThreadManager} {u : ThreadId} {runnable : RunnableId}
    {expiration created : Int} {woken : Option ThreadId}
    (h : s.push u runnable expiration created woken = some t) : s.core.Step t.core := by
  obtain ⟨m,rfl,⟨-,rfl⟩ | ⟨-,hm⟩⟩ := push_cases h
  · exact Core.Step.rest rfl
  · exact Core.Step.signalled hm rfl

theorem addTest_core {s t : ThreadManager} {u : ThreadId} {runnable : RunnableId}
    {timeout expiration created : Int} {woken : Option ThreadId}
    (h : s.addTest u runnable timeout expiration created woken = some t) :
    s.core.Step t.core := by
  obtain ⟨-,rfl⟩ | ⟨-,hpush⟩ := addTest_cases h
  · exact Core.Step.rest rfl
  · exact push_core (s := { s with maxMonitor := s.maxMonitor.leave u }) hpush

theorem add_core {s t : ThreadManager} {u : ThreadId} {runnable : RunnableId}
    {timeout expiration now created : Int} {locked : Bool} {woken : Option ThreadId}
    (h : s.add u runnable timeout expiration now created locked woken = some t) :
    s.core.Step t.core := by
  obtain ⟨-,rfl⟩ | ⟨-,-,rfl⟩ | ⟨-,-,-,rfl⟩ | ⟨-,-,h⟩ := add_cases h
  · exact Core.Step.rest rfl
  · exact Core.Step.rest rfl
  · exact Core.Step.rest rfl
  · exact addTest_core (s := s.removeExpiredTasks now) h

theorem start_core {s t : ThreadManager} {u : ThreadId} (h : s.start u = some t) :
    s.core.Step t.core := by
  obtain ⟨-,rfl⟩ | rfl | rfl := start_cases h
  · exact Core.Step.signal (c := s.core) (m := []) (fun _ hu => by cases hu)
      (fun _ => List.nodup_nil)
  · exact Core.Step.rest rfl
  · exact Core.Step.rest rfl

theorem startThread_core (s : ThreadManager) (w : ThreadId) :
    s.core.Step (s.startThread w).core := by
  unfold startThread
  split
  case isTrue hw => exact Core.Step.begin (c := s.core) hw
  case isFalse => exact Core.Step.rest rfl

theorem addWorkerTest_core (s : ThreadManager) (u : ThreadId) :
    (s.addWorkerTest u).core = s.core := by
  unfold addWorkerTest
  split <;> rfl

theorem removeWorkerTest_core (s : ThreadManager) (u : ThreadId) (stop : Option Bool) :
    (s.removeWorkerTest u stop).core = s.core := by
  unfold removeWorkerTest
  split
  · rfl
  · split <;> rfl

theorem stopSection_core (s : ThreadManager) (u : ThreadId) (join : Bool) :
    (s.stopSection u join).core = s.core := by
  unfold stopSection
  split <;> rfl

theorem stop_core (s : ThreadManager) (u : ThreadId) (join : Bool) :
    (s.stop u join).core = s.core := by
  unfold stop
  split <;> rfl

theorem removeNextPending_core (s : ThreadManager) (u : ThreadId) :
    (s.removeNextPending u).core = s.core := by
  obtain ⟨-,heq⟩ | ⟨-,heq⟩ | ⟨task,rest,-,heq⟩ := s.removeNextPending_cases u <;> rw [heq] <;> rfl

/-- The simulation: whatever the manager does, but for the end of a worker, its workers'
accounting does `Core.Step`. -/
theorem step_core {s t : ThreadManager} {a : Act} (hs : s.core.Sound) (h : s.step a = some t)
    (ha : ∀ w woken, a ≠ .exit w woken) : s.core.Step t.core := by
  cases step_to h with
  | setThreadFactory | removeExpiredTasks | setPendingTaskCountMax | setExpireCallback
  | expiredTaskCount | mapThread | stopRead | stopLast | addTimeout => exact Core.Step.rest rfl
  | start _ hstart => exact start_core hstart
  | addWorker _ _ _ hn hnew =>
    exact Core.Step.create (c := s.core) hn (fun w hw => (hnew w hw).1)
  | startThread => exact startThread_core s _
  | addWorkerTest => exact Core.Step.rest (addWorkerTest_core s _)
  | removeWorker _ hremove => exact removeWorker_core hs hremove
  | removeWorkerTest => exact Core.Step.rest (removeWorkerTest_core s _ _)
  | stop => exact Core.Step.rest (stop_core s _ _)
  | stopSection => exact Core.Step.rest (stopSection_core s _ _)
  | stopRemove _ hremove => exact removeWorker_core hs hremove
  | add _ hadd => exact add_core hadd
  | addResume _ htest => exact addTest_core htest
  | removeNextPending => exact Core.Step.rest (removeNextPending_core s _)
  | enter hw => exact enter_core hw
  | notifyManager hw => exact Core.Step.told (c := s.core) hw
  | take htake => exact take_core hs htake
  | finish hw => exact Core.Step.finish (c := s.core) hw
  | exit => exact absurd rfl (ha _ _)

theorem step_exit {s t : ThreadManager} {w : ThreadId} {woken : Option ThreadId}
    (h : s.step (.exit w woken) = some t) :
    ∃ b, s.phase w = .leaving b ∧ t.core = s.core.exited w := by
  cases step_to h with
  | @exit _ b _ _ hw hexit => exact ⟨b,hw,exit_core hexit⟩

/-- A step of the manager is one of the accounting, or the end of a worker. -/
theorem core_cases {s t : ThreadManager} {a : Act} (hs : s.core.Sound) (h : s.step a = some t) :
    ((∀ w woken, a ≠ .exit w woken) ∧ s.core.Step t.core) ∨
      ∃ w woken b, a = .exit w woken ∧ s.phase w = .leaving b ∧ t.core = s.core.exited w := by
  by_cases ha : ∃ w woken, a = .exit w woken
  · obtain ⟨w,woken,rfl⟩ := ha
    obtain ⟨b,hw,ht⟩ := step_exit h
    exact .inr ⟨w,woken,b,rfl,hw,ht⟩
  · have hexit : ∀ w woken, a ≠ .exit w woken := fun w woken he => ha ⟨w,woken,he⟩
    exact .inl ⟨hexit,step_core hs h hexit⟩

theorem step_keeps {P : Core → Prop} (hstep : ∀ c d : Core, c.Sound → P c → c.Step d → P d)
    (hexit : ∀ (c : Core) (w : ThreadId) (b : Bool), c.Sound → P c → c.phase w = .leaving b →
      P (c.exited w)) {s t : ThreadManager} {a : Act} (hs : s.core.Sound) (hp : P s.core)
    (h : s.step a = some t) : P t.core := by
  obtain ⟨-,hcore⟩ | ⟨w,woken,b,-,hw,ht⟩ := core_cases hs h
  · exact hstep _ _ hs hp hcore
  · rw [ht]
    exact hexit _ w b hs hp hw

theorem sound_init : init.core.Sound := by
  constructor <;> simp [init,core,population_nil]

theorem sound_inductive : system.Inductive (fun s => s.core.Sound) :=
  ⟨sound_init,fun _ _ _ hs h =>
    step_keeps (fun _ _ hc _ hd => hd.sound hc) (fun _ _ _ hc _ hw => hc.exited hw) hs hs h⟩

end ThreadManager
end MprMq.Threading
