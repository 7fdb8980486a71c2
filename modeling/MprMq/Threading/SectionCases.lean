import MprMq.Threading.WorkerCore
set_option autoImplicit false

/-! What the sections that can end in more than one way leave behind. -/

namespace MprMq.Threading
open MprMq.Lib

namespace ThreadManager

theorem start_cases {s t : ThreadManager} {u : ThreadId} (h : s.start u = some t) :
    (s.state = .uninitialized ∧ t = { s with state := .started, monitor := [] }.ret u .start) ∨
      t = s.throw u .start .invalidArgument ∨ t = s.ret u .start := by
  unfold start at h
  split at h
  case h_1 hstate =>
    split at h
    · exact .inl ⟨hstate,(Option.some.inj h).symm⟩
    · exact .inr (.inl (Option.some.inj h).symm)
  case h_2 => cases h
  case h_3 => exact .inr (.inr (Option.some.inj h).symm)

theorem removeWorker_cases {s t : ThreadManager} {u : ThreadId} {value : Nat}
    {stop : Option Bool} {woken : List (Option ThreadId)}
    (h : s.removeWorker u value stop woken = some t) :
    (s.workerMaxCount < value ∧ t = s.throw u (removeMethod stop) .invalidArgument) ∨
      (value ≤ s.workerMaxCount ∧ ∃ m, s.wakeForRemoval value woken = some m ∧
        t = { s with
          workerMaxCount := s.workerMaxCount-value
          monitor := m }.goto u (.removing stop)) := by
  unfold removeWorker at h
  split at h
  case isTrue hlt => exact .inl ⟨hlt,(Option.some.inj h).symm⟩
  case isFalse hle =>
    obtain ⟨m,hm,rfl⟩ := Option.map_eq_some_iff.mp h
    exact .inr ⟨Nat.not_lt.mp hle,m,hm,rfl⟩

theorem exit_cases {s t : ThreadManager} {w : ThreadId} {woken : Option ThreadId}
    (h : s.exit w woken = some t) : ∃ m, t = { s with
      deadWorkers := w :: s.deadWorkers
      workerCount := SizeT.dec s.workerCount
      workerMonitor := m }.move w .finished := by
  simp only [exit] at h
  split at h
  · obtain ⟨m,-,rfl⟩ := Option.map_eq_some_iff.mp h
    exact ⟨m,rfl⟩
  · obtain rfl := Option.some.inj h
    exact ⟨s.workerMonitor,rfl⟩

theorem removeNextPending_cases (s : ThreadManager) (u : ThreadId) :
    (s.state ≠ .started ∧
      s.removeNextPending u = s.throw u .removeNextPending .illegalState) ∨
    (s.tasks = [] ∧ s.removeNextPending u = s.ret u .removeNextPending) ∨
    (∃ task rest, s.tasks = task :: rest ∧ s.removeNextPending u =
      ({ s with tasks := rest }.record [.removed task.id]).ret u .removeNextPending) := by
  unfold removeNextPending
  split
  case isTrue hstate => exact .inl ⟨hstate,rfl⟩
  case isFalse =>
    split
    case h_1 htasks => exact .inr (.inl ⟨htasks,rfl⟩)
    case h_2 task rest htasks => exact .inr (.inr ⟨task,rest,htasks,rfl⟩)

def pushed (s : ThreadManager) (u : ThreadId) (runnable : RunnableId)
    (expiration created : Int) : ThreadManager :=
  { s with
    tasks := s.tasks ++ [Task.new s.nextTask runnable expiration created]
    nextTask := s.nextTask+1
    log := s.log ++ [Event.pushed s.nextTask] }.ret u .add

theorem push_cases {s t : ThreadManager} {u : ThreadId} {runnable : RunnableId}
    {expiration created : Int} {woken : Option ThreadId}
    (h : s.push u runnable expiration created woken = some t) :
    ∃ m, t = { s.pushed u runnable expiration created with monitor := m } ∧
      ((s.idleCount = 0 ∧ m = s.monitor) ∨
        (0 < s.idleCount ∧ s.monitor.notify woken = some m)) := by
  change (if 0 < s.idleCount then _ else _) = some t at h
  split at h
  case isTrue hidle =>
    obtain ⟨m,hm,rfl⟩ := Option.map_eq_some_iff.mp h
    exact ⟨m,rfl,.inr ⟨hidle,hm⟩⟩
  case isFalse hidle =>
    obtain rfl := Option.some.inj h
    exact ⟨s.monitor,rfl,.inl ⟨Nat.eq_zero_of_not_pos hidle,rfl⟩⟩

/-- An `Add` that finds the queue full parks; one that finds room pushes. -/
theorem addTest_cases {s t : ThreadManager} {u : ThreadId} {runnable : RunnableId}
    {timeout expiration created : Int} {woken : Option ThreadId}
    (h : s.addTest u runnable timeout expiration created woken = some t) :
    (s.full = true ∧ t = { s with maxMonitor := s.maxMonitor.park u }.goto u
      (.adding runnable timeout expiration)) ∨
    (s.full = false ∧ { s with maxMonitor := s.maxMonitor.leave u }.push u runnable expiration
      created woken = some t) := by
  unfold addTest at h
  split at h
  case isTrue hfull => exact .inl ⟨hfull,(Option.some.inj h).symm⟩
  case isFalse hfull => exact .inr ⟨by simpa using hfull,h⟩

/-- `Add` throws, for one of three reasons, or it gets to the loop in state `STARTED`. -/
theorem add_cases {s t : ThreadManager} {u : ThreadId} {runnable : RunnableId}
    {timeout expiration now created : Int} {locked : Bool} {woken : Option ThreadId}
    (h : s.add u runnable timeout expiration now created locked woken = some t) :
    (locked = false ∧ t = s.throw u .add .timedOut) ∨
    (locked = true ∧ s.state ≠ .started ∧ t = s.throw u .add .illegalState) ∨
    (locked = true ∧ s.state = .started ∧ (s.removeExpiredTasks now).full = true ∧
      t = (s.removeExpiredTasks now).throw u .add .tooManyPendingTasks) ∨
    (locked = true ∧ s.state = .started ∧
      (s.removeExpiredTasks now).addTest u runnable timeout expiration created woken =
        some t) := by
  simp only [add] at h
  split at h
  case isTrue hlocked =>
    obtain ⟨-,⟨⟩⟩ := Option.ite_none_right_eq_some.mp h
    exact .inl ⟨by simpa using hlocked,rfl⟩
  case isFalse hlocked =>
    have hlocked' : locked = true := by simpa using hlocked
    split at h
    case isTrue hstate => exact .inr (.inl ⟨hlocked',hstate,(Option.some.inj h).symm⟩)
    case isFalse hstate =>
      have hstate' : s.state = .started := not_not.mp hstate
      split at h
      case isTrue hfull =>
        exact .inr (.inr (.inl ⟨hlocked',hstate',hfull.1,(Option.some.inj h).symm⟩))
      case isFalse => exact .inr (.inr (.inr ⟨hlocked',hstate',h⟩))

/-- A worker with something in the queue drops what has expired, takes the next task if
there is one left, and signals those that wait for room below the limit. -/
theorem takeTask_cases {s t : ThreadManager} {w : ThreadId} {now : Int}
    {woken : Option ThreadId} (h : s.takeTask w now woken = some t) :
    ∃ u m, t = { u with maxMonitor := m } ∧
      ((s.removeExpiredTasks now).tasks = [] ∧ u = (s.removeExpiredTasks now).move w .looping ∨
        ∃ task rest, (s.removeExpiredTasks now).tasks = task :: rest ∧
          u = { s.removeExpiredTasks now with tasks := rest }.move w (.executing task.take)) ∧
      ((s.pendingTaskCountMax ≠ 0 ∧ u.tasks.length ≤ s.pendingTaskCountMax-1 ∧
          s.maxMonitor.notify woken = some m) ∨
        (¬ (s.pendingTaskCountMax ≠ 0 ∧ u.tasks.length ≤ s.pendingTaskCountMax-1) ∧
          m = s.maxMonitor)) := by
  simp only [takeTask] at h
  have hrest : ∀ u : ThreadManager, u.pendingTaskCountMax = s.pendingTaskCountMax →
      u.maxMonitor = s.maxMonitor → (if u.pendingTaskCountMax ≠ 0 ∧
        u.tasks.length ≤ u.pendingTaskCountMax-1 then
          (u.maxMonitor.notify woken).map (fun m => { u with maxMonitor := m })
        else some u) = some t →
      ∃ m, t = { u with maxMonitor := m } ∧
        ((s.pendingTaskCountMax ≠ 0 ∧ u.tasks.length ≤ s.pendingTaskCountMax-1 ∧
            s.maxMonitor.notify woken = some m) ∨
          (¬ (s.pendingTaskCountMax ≠ 0 ∧ u.tasks.length ≤ s.pendingTaskCountMax-1) ∧
            m = s.maxMonitor)) := by
    intro u hlimit hwait hu
    rw [← hlimit,← hwait]
    split at hu
    case isTrue hroom =>
      obtain ⟨m,hm,rfl⟩ := Option.map_eq_some_iff.mp hu
      exact ⟨m,rfl,.inl ⟨hroom.1,hroom.2,hm⟩⟩
    case isFalse hroom =>
      obtain rfl := Option.some.inj hu
      exact ⟨u.maxMonitor,rfl,.inr ⟨hroom,rfl⟩⟩
  cases htasks : (s.removeExpiredTasks now).tasks with
  | nil =>
    rw [htasks] at h
    obtain ⟨m,ht,hm⟩ := hrest ((s.removeExpiredTasks now).move w .looping) rfl rfl h
    exact ⟨_,m,ht,.inl ⟨rfl,rfl⟩,hm⟩
  | cons task rest =>
    rw [htasks] at h
    obtain ⟨m,ht,hm⟩ := hrest ({ s.removeExpiredTasks now with tasks := rest }.move w
      (.executing task.take)) rfl rfl h
    exact ⟨_,m,ht,.inr ⟨task,rest,rfl,rfl⟩,hm⟩

def awake (s : ThreadManager) (w : ThreadId) : ThreadManager :=
  { s with
    idleCount := if s.phase w = .waiting then SizeT.dec s.idleCount else s.idleCount
    monitor := if s.phase w = .waiting then s.monitor.leave w else s.monitor }

theorem take_cases {s t : ThreadManager} {w : ThreadId} {now : Int} {woken : Option ThreadId}
    (h : s.take w now woken = some t) : (s.phase w).atLoop = true ∧
    ((s.isActive = false ∧ t = (s.awake w).move w (.leaving true)) ∨
      (s.isActive = true ∧ s.tasks = [] ∧ t = { s.awake w with
        idleCount := (s.awake w).idleCount+1
        monitor := (s.awake w).monitor.park w }.move w .waiting) ∨
      (s.isActive = true ∧ s.tasks ≠ [] ∧ (s.awake w).takeTask w now woken = some t)) := by
  have hloop : ∀ u : ThreadManager, u = s.awake w → u.loopTest w now woken = some t →
      (s.isActive = false ∧ t = (s.awake w).move w (.leaving true)) ∨
      (s.isActive = true ∧ s.tasks = [] ∧ t = { s.awake w with
        idleCount := (s.awake w).idleCount+1
        monitor := (s.awake w).monitor.park w }.move w .waiting) ∨
      (s.isActive = true ∧ s.tasks ≠ [] ∧ (s.awake w).takeTask w now woken = some t) := by
    rintro u rfl hu
    unfold loopTest at hu
    split at hu
    case isTrue hactive =>
      split at hu
      case isTrue htasks => exact .inr (.inl ⟨hactive,htasks,(Option.some.inj hu).symm⟩)
      case isFalse htasks => exact .inr (.inr ⟨hactive,htasks,hu⟩)
    case isFalse hactive =>
      have hinactive : s.isActive = false := Bool.eq_false_iff.mpr hactive
      exact .inl ⟨hinactive,(Option.some.inj hu).symm⟩
  unfold take at h
  split at h
  case h_1 hw => exact ⟨by rw [hw]; rfl,hloop s (by simp [awake,hw]) h⟩
  case h_2 hw => exact ⟨by rw [hw]; rfl,hloop _ (by simp [awake,hw]) h⟩
  case h_3 => cases h

end ThreadManager
end MprMq.Threading
