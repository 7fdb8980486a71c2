import MprMq.Threading.Growth
set_option autoImplicit false

/-! Workers that wait for tasks, and the signals that `Add` sends them. -/

namespace MprMq.Threading
open MprMq.Lib

namespace ThreadManager

/-- With tasks in the queue a worker of those that have registered is awake. -/
def Awake (s : ThreadManager) : Prop :=
  s.tasks ≠ [] → ∀ w, (s.phase w).staying = true →
    ∃ v, (s.phase v).staying = true ∧ v ∉ s.monitor

theorem QueueFrame.awake {s t : ThreadManager} (hf : QueueFrame s t) (hsound : s.core.Sound)
    (hs : s.Awake) : t.Awake := by
  intro htasks w hw
  by_cases hold : (s.phase w).staying = true
  · obtain ⟨v,hv,hv'⟩ := hs (hf.tasks ▸ htasks) w hold
    refine ⟨v,?_,fun hm => hv' (hf.monitor v hm)⟩
    obtain heq | hop := hf.phase v
    · exact heq ▸ hv
    · exact hop.staying hv
  · refine ⟨w,hw,fun hm => hold ?_⟩
    have : s.phase w = .waiting := hsound.parked w (hf.monitor w hm)
    rw [this]
    rfl

/-- A push wakes a worker, if none is awake: `idle_count_` is zero only if none waits. -/
theorem push_awake {s : ThreadManager} {m : Waiters ThreadId} {woken : Option ThreadId}
    (hsound : s.core.Sound)
    (h : (s.idleCount = 0 ∧ m = s.monitor) ∨ (0 < s.idleCount ∧ s.monitor.notify woken = some m))
    {w : ThreadId} (hw : (s.phase w).staying = true) :
    ∃ v, (s.phase v).staying = true ∧ v ∉ m := by
  obtain ⟨hidle,rfl⟩ | ⟨-,hm⟩ := h
  · have hnil : s.monitor.length ≤ s.idleCount := hsound.monitor_length
    rw [hidle] at hnil
    have : s.monitor = [] := List.length_eq_zero_iff.mp (Nat.le_zero.mp hnil)
    exact ⟨w,hw,by simp [this]⟩
  · by_cases hnil : s.monitor = []
    · refine ⟨w,hw,fun hmem => ?_⟩
      have := Waiters.notify_subset hm w hmem
      rw [hnil] at this
      cases this
    · obtain ⟨v,hv,hv'⟩ := Waiters.notify_wakes hm hsound.waiters hnil
      have : s.phase v = .waiting := hsound.parked v hv
      exact ⟨v,by rw [this]; rfl,hv'⟩

theorem Awake.addTest {s t : ThreadManager} {u : ThreadId} {runnable : RunnableId}
    {timeout expiration created : Int} {woken : Option ThreadId} (hs : s.Awake)
    (hsound : s.core.Sound)
    (h : s.addTest u runnable timeout expiration created woken = some t) : t.Awake := by
  obtain ⟨-,rfl⟩ | ⟨-,hpush⟩ := addTest_cases h
  · exact hs
  · obtain ⟨m,rfl,hm⟩ := push_cases hpush
    exact fun _ w hw => push_awake (s := { s with maxMonitor := s.maxMonitor.leave u }) hsound hm hw

theorem Awake.expire {s : ThreadManager} (hs : s.Awake) (now : Int) :
    (s.removeExpiredTasks now).Awake :=
  fun htasks => hs (fun hnil => htasks (by simp [removeExpiredTasks,hnil]))

theorem Awake.add {s t : ThreadManager} {u : ThreadId} {runnable : RunnableId}
    {timeout expiration now created : Int} {locked : Bool} {woken : Option ThreadId}
    (hs : s.Awake) (hsound : s.core.Sound)
    (h : s.add u runnable timeout expiration now created locked woken = some t) : t.Awake := by
  obtain ⟨-,rfl⟩ | ⟨-,-,rfl⟩ | ⟨-,-,-,rfl⟩ | ⟨-,-,h⟩ := add_cases h
  · exact hs
  · exact hs
  · exact hs.expire now
  · exact (hs.expire now).addTest hsound h

theorem Awake.removeNextPending {s : ThreadManager} (hs : s.Awake) (u : ThreadId) :
    (s.removeNextPending u).Awake := by
  unfold ThreadManager.removeNextPending
  split
  · exact hs
  · split
    case h_1 => exact hs
    case h_2 task rest htasks => exact fun _ => hs (by simp [htasks])

/-- A worker that finds tasks is awake behind its section, and one that parks leaves the
queue empty. -/
theorem Awake.take {s t : ThreadManager} {w : ThreadId} {now : Int} {woken : Option ThreadId}
    (hg : s.core.Growing) (h : s.take w now woken = some t) : t.Awake := by
  have hsound := hg.sound
  have hactive : s.isActive = true := by
    have : s.workerCount ≤ s.workerMaxCount := hg.count_le
    simp [isActive,this]
  have hout : w ∉ (s.awake w).monitor := by
    intro hm
    unfold awake at hm
    split at hm
    · exact ((Waiters.mem_leave hsound.waiters).mp hm).1 rfl
    · exact absurd (hsound.parked w hm) ‹_›
  obtain ⟨-,⟨hno,-⟩ | ⟨-,hnil,rfl⟩ | ⟨-,-,htask⟩⟩ := take_cases h
  · rw [hactive] at hno
    cases hno
  · exact fun hne => absurd hnil hne
  · obtain ⟨u,m,rfl,⟨-,rfl⟩ | ⟨task,rest,-,rfl⟩,-⟩ := takeTask_cases htask
    · exact fun _ _ _ => ⟨w,by simp [move,WorkerPhase.staying],hout⟩
    · exact fun _ _ _ => ⟨w,by simp [move,WorkerPhase.staying],hout⟩

theorem Awake.finish {s : ThreadManager} (hsound : s.core.Sound) {w : ThreadId} {task : Task}
    (hw : s.phase w = .executing task) : (s.finish w task).Awake := by
  refine fun _ _ _ => ⟨w,?_,fun hm => ?_⟩
  · simp [ThreadManager.finish,record,move,WorkerPhase.staying]
  · have : s.phase w = .waiting := hsound.parked w hm
    rw [hw] at this
    cases this

theorem Awake.step {s t : ThreadManager} {a : Act} (hs : s.Awake) (hg : s.core.Growing)
    (h : s.step a = some t) : t.Awake := by
  by_cases hqueue : a.onQueue = false
  · exact (queue_frame hqueue h).awake hg.sound hs
  cases step_to h with
  | removeExpiredTasks now => exact hs.expire now
  | setPendingTaskCountMax | addTimeout => exact hs
  | add _ hadd => exact hs.add hg.sound hadd
  | addResume _ htest => exact hs.addTest hg.sound htest
  | removeNextPending => exact hs.removeNextPending _
  | take htake => exact .take hg htake
  | finish hw => exact .finish hg.sound hw
  | _ => exact absurd rfl hqueue

/-- There are tasks in the queue, and every registered worker, of which there is one, waits
un-notified. -/
def Overslept (s : ThreadManager) : Prop :=
  s.tasks ≠ [] ∧ 0 < s.core.registered ∧ ∀ w, (s.phase w).registered = true → w ∈ s.monitor

/-- Before anything stops a registered worker is on the way to its loop or in it. -/
theorem Grown.some_staying {s : ThreadManager} (hg : s.Grown) (hone : 0 < s.core.registered) :
    ∃ w, (s.phase w).staying = true := by
  obtain ⟨w,hw,hreg⟩ := population_pos.mp hone
  have hrising : (s.phase w).rising = true := hg.core.rising w hw
  have hreg : (s.phase w).registered = true := hreg
  refine ⟨w,?_⟩
  cases hp : s.phase w <;> simp_all [WorkerPhase.rising,WorkerPhase.registered,
    WorkerPhase.staying]

theorem Awake.not_overslept {s : ThreadManager} (hs : s.Awake) (hg : s.Grown) :
    ¬ s.Overslept := by
  rintro ⟨htasks,hone,hparked⟩
  obtain ⟨w,hw⟩ := hg.some_staying hone
  obtain ⟨v,hv,hv'⟩ := hs htasks w hw
  exact hv' (hparked v (WorkerPhase.registered_of_staying hv))

theorem awake_init : init.Awake := fun h => absurd rfl h

end ThreadManager

/-- In a run without `RemoveWorker`, `Stop` and `Join` no task is left behind while all
registered workers sleep. -/
theorem no_wakeup_lost {as : List Act} (has : ∀ a ∈ as, a.onStop = false) :
    ThreadManager.system.Always (fun s => ¬ s.Overslept) as := by
  refine System.always_labelled (I := fun s => s.Grown ∧ s.Awake)
    ⟨ThreadManager.grown_init,ThreadManager.awake_init⟩ ?_ ?_ has
  · intro s a t ha ⟨hg,hs⟩ h
    exact ⟨hg.step ha h,hs.step hg.core h⟩
  · intro s ⟨hg,hs⟩
    exact hs.not_overslept hg

/-- Two workers sleep, two tasks come, and both are woken though each `Add` signals once. -/
def twoTasks : List Act :=
  [.setThreadFactory true,.start 0,.addWorker 0 [1,2],.startThread 0,.mapThread 0,
    .startThread 0,.mapThread 0,.enter 1,.enter 2,.notifyManager 2 none,.addWorkerTest 0,
    .take 1 0 none,.take 2 0 none,.add 3 5 0 0 0 0 true (some 1),.add 4 6 0 0 0 0 true (some 2),
    .take 2 0 none,.finish 2,.take 2 0 none,.take 1 0 none]

theorem two_tasks_wake_two : ThreadManager.system.Always (fun s => ¬ s.Overslept) twoTasks :=
  no_wakeup_lost (by decide)

/-- A task comes while `AddWorker` has started its thread and the thread has not got to its
first lock: there is no registered worker yet. -/
def beforeRegistration : List Act :=
  [.setThreadFactory true,.start 0,.addWorker 0 [1],.startThread 0]

theorem task_before_workers :
    ¬ ∀ as, (∀ a ∈ as, a.onStop = false) → ThreadManager.system.Always
      (fun s => ¬ (s.tasks ≠ [] ∧ ∀ w, (s.phase w).registered = true → w ∈ s.monitor)) as := by
  intro h
  have hfree := System.AlongFrom.after beforeRegistration
    (h (beforeRegistration ++ [.add 2 5 0 0 0 0 true none]) (by decide)).2 rfl rfl
  refine hfree ⟨by decide,fun w hw => ?_⟩
  have hrun : ThreadManager.system.run
    (beforeRegistration ++ [.add 2 5 0 0 0 0 true none]) = some _ := rfl
  have hsound := ThreadManager.sound_inductive.run hrun
  obtain rfl : w = 1 := List.mem_singleton.mp (hsound.mem_of_registered hw)
  cases hw

end MprMq.Threading
