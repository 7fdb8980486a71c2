import MprMq.Threading.StepFrames
set_option autoImplicit false

/-! What becomes of the tasks: each that was pushed is in the queue, with a worker, or has
been executed, has expired or was taken out. -/

namespace MprMq.Threading
open MprMq.Lib

/-- A worker that takes a task changes its state alone. -/
theorem Task.take_id (task : Task) : task.take.id = task.id := by
  unfold Task.take
  split <;> rfl

theorem Task.take_expired (task : Task) (now : Int) : task.take.expired now = task.expired now := by
  unfold Task.take
  split <;> rfl

namespace ThreadManager

/-- The task was executed, has expired, or `RemoveNextPending` took it. -/
def Done (s : ThreadManager) (id : TaskId) : Prop :=
  .executed id ∈ s.log ∨ (∃ callback, .expired id callback ∈ s.log) ∨ .removed id ∈ s.log

def Accounted (s : ThreadManager) (id : TaskId) : Prop :=
  (∃ task ∈ s.tasks, task.id = id) ∨ (∃ w task, s.phase w = .executing task ∧ task.id = id) ∨
    s.Done id

structure TasksKept (s : ThreadManager) : Prop where
  waiting : ∀ task ∈ s.tasks, task.state = .waiting
  executing : ∀ w task, s.phase w = .executing task → task.state = .executing
  accounted : ∀ id < s.nextTask, s.Accounted id

theorem Done.mono {s t : ThreadManager} (hlog : ∀ e ∈ s.log, e ∈ t.log) {id : TaskId}
    (h : s.Done id) : t.Done id := by
  obtain h | ⟨callback,h⟩ | h := h
  · exact .inl (hlog _ h)
  · exact .inr (.inl ⟨callback,hlog _ h⟩)
  · exact .inr (.inr (hlog _ h))

theorem TasksKept.of_eq {s t : ThreadManager} (hs : s.TasksKept) (htasks : t.tasks = s.tasks)
    (hnext : t.nextTask = s.nextTask)
    (hphase : ∀ w task, t.phase w = .executing task ↔ s.phase w = .executing task)
    (hlog : ∀ e ∈ s.log, e ∈ t.log) : t.TasksKept where
  waiting := fun task htask => hs.waiting task (htasks ▸ htask)
  executing := fun w task hw => hs.executing w task ((hphase w task).mp hw)
  accounted := fun id hid => by
    obtain ⟨task,htask,hid⟩ | ⟨w,task,hw,hid⟩ | hdone := hs.accounted id (hnext ▸ hid)
    · exact .inl ⟨task,htasks ▸ htask,hid⟩
    · exact .inr (.inl ⟨w,task,(hphase w task).mpr hw,hid⟩)
    · exact .inr (.inr (hdone.mono hlog))

theorem TasksKept.record {s : ThreadManager} (hs : s.TasksKept) (es : List Event) :
    (s.record es).TasksKept :=
  hs.of_eq rfl rfl (fun _ _ => Iff.rfl) (fun _ he => List.mem_append_left _ he)

theorem TasksKept.goto {s : ThreadManager} (hs : s.TasksKept) (u : ThreadId) (p : CallPhase) :
    (s.goto u p).TasksKept := hs.of_eq rfl rfl (fun _ _ => Iff.rfl) (fun _ he => he)

theorem TasksKept.expire {s : ThreadManager} (hs : s.TasksKept) (now : Int) :
    (s.removeExpiredTasks now).TasksKept where
  waiting := fun task htask => hs.waiting task ((List.dropWhile_sublist _).subset htask)
  executing := hs.executing
  accounted := fun id hid => by
    have hlog : ∀ e ∈ s.log, e ∈ (s.removeExpiredTasks now).log :=
      fun e he => List.mem_append_left _ he
    obtain ⟨task,htask,hid⟩ | ⟨w,task,hw,hid⟩ | hdone := hs.accounted id hid
    · rw [← List.takeWhile_append_dropWhile (p := Task.expired now) (l := s.tasks)] at htask
      obtain hgone | hkept := List.mem_append.mp htask
      · refine .inr (.inr (.inr (.inl ⟨s.expireCallback,List.mem_append_right _ ?_⟩)))
        exact List.mem_map.mpr ⟨task,hgone,by rw [hid]⟩
      · exact .inl ⟨task,hkept,hid⟩
    · exact .inr (.inl ⟨w,task,hw,hid⟩)
    · exact .inr (.inr (hdone.mono hlog))

theorem TasksKept.push {s t : ThreadManager} {u : ThreadId} {runnable : RunnableId}
    {expiration created : Int} {woken : Option ThreadId} (hs : s.TasksKept)
    (h : s.push u runnable expiration created woken = some t) : t.TasksKept := by
  obtain ⟨m,rfl,-⟩ := push_cases h
  refine ⟨fun task htask => ?_,hs.executing,fun id hid => ?_⟩
  · obtain htask | htask := List.mem_append.mp htask
    · exact hs.waiting task htask
    · obtain rfl := List.mem_singleton.mp htask
      rfl
  · obtain hlt | rfl := Nat.lt_succ_iff_lt_or_eq.mp hid
    · obtain ⟨task,htask,hid⟩ | ⟨w,task,hw,hid⟩ | hdone := hs.accounted id hlt
      · exact .inl ⟨task,List.mem_append_left _ htask,hid⟩
      · exact .inr (.inl ⟨w,task,hw,hid⟩)
      · refine .inr (.inr (hdone.mono (fun e he => ?_)))
        exact List.mem_append_left _ (List.mem_append_left _ he)
    · exact .inl ⟨_,List.mem_append_right _ (List.mem_singleton.mpr rfl),rfl⟩

theorem TasksKept.addTest {s t : ThreadManager} {u : ThreadId} {runnable : RunnableId}
    {timeout expiration created : Int} {woken : Option ThreadId} (hs : s.TasksKept)
    (h : s.addTest u runnable timeout expiration created woken = some t) : t.TasksKept := by
  obtain ⟨-,rfl⟩ | ⟨-,hpush⟩ := addTest_cases h
  · exact hs.of_eq rfl rfl (fun _ _ => Iff.rfl) (fun _ he => he)
  · exact TasksKept.push (s := { s with maxMonitor := s.maxMonitor.leave u })
      (hs.of_eq rfl rfl (fun _ _ => Iff.rfl) (fun _ he => he)) hpush

theorem TasksKept.add {s t : ThreadManager} {u : ThreadId} {runnable : RunnableId}
    {timeout expiration now created : Int} {locked : Bool} {woken : Option ThreadId}
    (hs : s.TasksKept)
    (h : s.add u runnable timeout expiration now created locked woken = some t) :
    t.TasksKept := by
  obtain ⟨-,rfl⟩ | ⟨-,-,rfl⟩ | ⟨-,-,-,rfl⟩ | ⟨-,-,h⟩ := add_cases h
  · exact (hs.goto u .none).record _
  · exact (hs.goto u .none).record _
  · exact ((hs.expire now).goto u .none).record _
  · exact (hs.expire now).addTest h

theorem TasksKept.move {s : ThreadManager} (hs : s.TasksKept) {w : ThreadId} {p : WorkerPhase}
    (hold : ∀ task, s.phase w ≠ .executing task) (hnew : ∀ task, p ≠ .executing task) :
    (s.move w p).TasksKept := by
  refine hs.of_eq rfl rfl (fun v task => ?_) (fun _ he => he)
  by_cases he : v = w
  · subst he
    simp [ThreadManager.move,hold task,hnew task]
  · simp [ThreadManager.move,Function.update_of_ne he]

theorem TasksKept.pop {s : ThreadManager} (hs : s.TasksKept) {w : ThreadId} {task : Task}
    {rest : List Task} (hold : ∀ task, s.phase w ≠ .executing task)
    (htasks : s.tasks = task :: rest) :
    ({ s with tasks := rest }.move w (.executing task.take)).TasksKept where
  waiting := fun task' htask' =>
    hs.waiting task' (by rw [htasks]; exact List.mem_cons_of_mem _ htask')
  executing := fun v task' hv => by
    obtain ⟨-,hv⟩ | ⟨-,hv⟩ := update_cases hv
    · obtain rfl := WorkerPhase.executing.inj hv
      have hwaiting := hs.waiting task (by rw [htasks]; exact List.mem_cons_self)
      simp [Task.take,hwaiting]
    · exact hs.executing v task' hv
  accounted := fun id hid => by
    obtain ⟨task',htask',heq⟩ | ⟨v,task',hv,heq⟩ | hdone := hs.accounted id hid
    · rw [htasks] at htask'
      obtain rfl | htask' := List.mem_cons.mp htask'
      · exact .inr (.inl ⟨w,_,by simp [ThreadManager.move],(Task.take_id _).trans heq⟩)
      · exact .inl ⟨task',htask',heq⟩
    · have hne : v ≠ w := fun he => hold task' (he ▸ hv)
      exact .inr (.inl ⟨v,task',by simp [ThreadManager.move,Function.update_of_ne hne,hv],heq⟩)
    · exact .inr (.inr (hdone.mono (fun _ he => he)))

theorem TasksKept.take {s t : ThreadManager} {w : ThreadId} {now : Int} {woken : Option ThreadId}
    (hs : s.TasksKept) (h : s.take w now woken = some t) : t.TasksKept := by
  obtain ⟨hloop,hcases⟩ := take_cases h
  have hold : ∀ task, s.phase w ≠ .executing task := by
    intro task hw
    rw [hw] at hloop
    cases hloop
  have hawake : (s.awake w).TasksKept :=
    hs.of_eq rfl rfl (fun _ _ => Iff.rfl) (fun _ he => he)
  obtain ⟨-,rfl⟩ | ⟨-,-,rfl⟩ | ⟨-,-,htask⟩ := hcases
  · exact hawake.move hold (by simp)
  · exact (hawake.move (p := .waiting) hold (by simp)).of_eq rfl rfl (fun _ _ => Iff.rfl)
      (fun _ he => he)
  · have hexpired := hawake.expire now
    obtain ⟨u,m,rfl,⟨-,rfl⟩ | ⟨task,rest,htasks,rfl⟩,-⟩ := takeTask_cases htask
    · exact (hexpired.move (p := .looping) hold (by simp)).of_eq rfl rfl (fun _ _ => Iff.rfl)
        (fun _ he => he)
    · exact (hexpired.pop hold htasks).of_eq rfl rfl (fun _ _ => Iff.rfl) (fun _ he => he)

theorem TasksKept.finish {s : ThreadManager} (hs : s.TasksKept) {w : ThreadId} {task : Task}
    (hw : s.phase w = .executing task) : (s.finish w task).TasksKept where
  waiting := hs.waiting
  executing := fun v task' hv => by
    obtain ⟨-,hv⟩ | ⟨-,hv⟩ := update_cases hv
    · cases hv
    · exact hs.executing v task' hv
  accounted := fun id hid => by
    have hstate := hs.executing w task hw
    obtain ⟨task',htask',hid⟩ | ⟨v,task',hv,hid⟩ | hdone := hs.accounted id hid
    · exact .inl ⟨task',htask',hid⟩
    · by_cases he : v = w
      · subst he
        obtain rfl := WorkerPhase.executing.inj (hw.symm.trans hv)
        refine .inr (.inr (.inl ?_))
        simp [ThreadManager.finish,ThreadManager.record,hstate,hid]
      · refine .inr (.inl ⟨v,task',?_,hid⟩)
        simp [ThreadManager.finish,ThreadManager.record,ThreadManager.move,
          Function.update_of_ne he,hv]
    · exact .inr (.inr (hdone.mono (fun _ he => List.mem_append_left _ he)))

theorem TasksKept.removeNextPending {s : ThreadManager} (hs : s.TasksKept) (u : ThreadId) :
    (s.removeNextPending u).TasksKept := by
  unfold ThreadManager.removeNextPending
  split
  · exact (hs.goto u .none).record _
  · split
    case h_1 => exact (hs.goto u .none).record _
    case h_2 task rest htasks =>
      refine TasksKept.record (TasksKept.goto ?_ u .none) _
      refine ⟨fun task' htask' => ?_,hs.executing,fun id hid => ?_⟩
      · exact hs.waiting task' (by rw [htasks]; exact List.mem_cons_of_mem _ htask')
      · obtain ⟨task',htask',heq⟩ | ⟨v,task',hv,heq⟩ | hdone := hs.accounted id hid
        · rw [htasks] at htask'
          obtain rfl | htask' := List.mem_cons.mp htask'
          · refine .inr (.inr (.inr (.inr ?_)))
            simp [ThreadManager.record,heq]
          · exact .inl ⟨task',htask',heq⟩
        · exact .inr (.inl ⟨v,task',hv,heq⟩)
        · exact .inr (.inr (hdone.mono (fun _ he => List.mem_append_left _ he)))

theorem QueueFrame.tasksKept {s t : ThreadManager} (hf : QueueFrame s t) (hs : s.TasksKept) :
    t.TasksKept := by
  obtain ⟨es,hlog,-⟩ := hf.log
  refine hs.of_eq hf.tasks hf.nextTask (fun w task => ?_) (fun e he => ?_)
  · obtain heq | hop := hf.phase w
    · rw [heq]
    · exact iff_of_false (hop.executing task).2 (hop.executing task).1
  · rw [hlog]
    exact List.mem_append_left _ he

theorem TasksKept.step {s t : ThreadManager} {a : Act} (hs : s.TasksKept)
    (h : s.step a = some t) : t.TasksKept := by
  by_cases hqueue : a.onQueue = false
  · exact (queue_frame hqueue h).tasksKept hs
  cases step_to h with
  | add _ hadd => exact hs.add hadd
  | addResume _ htest => exact hs.addTest htest
  | addTimeout =>
    exact hs.of_eq rfl rfl (fun _ _ => Iff.rfl) (fun _ he => List.mem_append_left _ he)
  | removeNextPending => exact hs.removeNextPending _
  | removeExpiredTasks now => exact hs.expire now
  | setPendingTaskCountMax => exact hs.of_eq rfl rfl (fun _ _ => Iff.rfl) (fun _ he => he)
  | take htake => exact hs.take htake
  | finish hw => exact hs.finish hw
  | _ => exact absurd rfl hqueue

/-- In every run each task that was pushed is somewhere. -/
theorem tasksKept_inductive : system.Inductive TasksKept where
  init := by
    refine ⟨fun _ h => ?_,fun _ _ h => ?_,fun _ h => ?_⟩ <;> cases h
  step := fun _ _ _ hs h => hs.step h

end ThreadManager
end MprMq.Threading
