import MprMq.Threading.StepFrames
set_option autoImplicit false

/-! In which states tasks get into the queue. -/

namespace MprMq.Threading
open MprMq.Lib

/-- The caller of `Add` that holds the mutex in this step and does not wait on for room. -/
def enqueuing (s : ThreadManager) : Act → Option ThreadId
  | .add u _ _ _ _ _ true _ => some u
  | .addResume u _ _ => if s.full then none else some u
  | _ => none

def Act.onPush : Act → Bool
  | .add .. | .addResume .. => true
  | _ => false

/-- What a step has to keep: a push happens in state `STARTED`, and who comes to enqueue
in another state gets an `IllegalStateException` and changes nothing in the queue. -/
structure PushesStarted (s : ThreadManager) (a : Act) (t : ThreadManager) : Prop where
  pushes : s.nextTask < t.nextTask → s.state = .started
  refused : ∀ u, enqueuing s a = some u → s.state ≠ .started →
    t.tasks = s.tasks ∧ t.log = s.log ++ [.threw u .add .illegalState]

/-- An `Add` that comes back from its wait and finds room finds the manager `STARTED`. -/
def resumesStarted (s : ThreadManager) : Act → Bool
  | .addResume _ _ _ => s.full || s.state = .started
  | _ => true

namespace ThreadManager

theorem push_nextTask {s t : ThreadManager} {u : ThreadId} {runnable : RunnableId}
    {expiration created : Int} {woken : Option ThreadId}
    (h : s.push u runnable expiration created woken = some t) : t.nextTask = s.nextTask+1 := by
  obtain ⟨m,rfl,-⟩ := push_cases h
  rfl

theorem take_nextTask {s t : ThreadManager} {w : ThreadId} {now : Int}
    {woken : Option ThreadId} (h : s.take w now woken = some t) : t.nextTask = s.nextTask := by
  obtain ⟨-,⟨-,rfl⟩ | ⟨-,-,rfl⟩ | ⟨-,-,htask⟩⟩ := take_cases h
  · rfl
  · rfl
  · obtain ⟨u,m,rfl,⟨-,rfl⟩ | ⟨task,rest,-,rfl⟩,-⟩ := takeTask_cases htask <;> rfl

theorem nextTask_eq {s t : ThreadManager} {a : Act} (ha : a.onPush = false)
    (h : s.step a = some t) : t.nextTask = s.nextTask := by
  by_cases hqueue : a.onQueue = false
  · exact (queue_frame hqueue h).nextTask
  cases step_to h with
  | add | addResume => cases ha
  | removeExpiredTasks | setPendingTaskCountMax | addTimeout | finish => rfl
  | take htake => exact take_nextTask htake
  | @removeNextPending u =>
    obtain ⟨-,heq⟩ | ⟨-,heq⟩ | ⟨task,rest,-,heq⟩ := s.removeNextPending_cases u <;> rw [heq] <;> rfl
  | _ => exact absurd rfl hqueue

/-- `Add` tests the state at its start. -/
theorem add_pushesStarted {s t : ThreadManager} {u : ThreadId} {runnable : RunnableId}
    {timeout expiration now created : Int} {locked : Bool} {woken : Option ThreadId}
    (h : s.add u runnable timeout expiration now created locked woken = some t) :
    PushesStarted s (.add u runnable timeout expiration now created locked woken) t := by
  obtain ⟨rfl,rfl⟩ | ⟨rfl,hstate,rfl⟩ | ⟨rfl,hstate,-,rfl⟩ | ⟨rfl,hstate,-⟩ := add_cases h
  · exact ⟨fun hlt => absurd hlt (Nat.lt_irrefl _),fun v hv => by cases hv⟩
  · refine ⟨fun hlt => absurd hlt (Nat.lt_irrefl _),fun v hv _ => ?_⟩
    obtain rfl := Option.some.inj hv
    exact ⟨rfl,rfl⟩
  · exact ⟨fun _ => hstate,fun v hv hne => absurd hstate hne⟩
  · exact ⟨fun _ => hstate,fun v hv hne => absurd hstate hne⟩

/-- A resumed `Add` does not test it again. -/
theorem addResume_pushesStarted_iff {s t : ThreadManager} {u : ThreadId} {created : Int}
    {woken : Option ThreadId} (h : s.step (.addResume u created woken) = some t) :
    PushesStarted s (.addResume u created woken) t ↔
      resumesStarted s (.addResume u created woken) := by
  cases step_to h with
  | addResume _ htest =>
    obtain ⟨hfull,rfl⟩ | ⟨hroom,hpush⟩ := addTest_cases htest
    · refine iff_of_true ?_ (by simp [resumesStarted,hfull])
      exact ⟨fun hlt => absurd hlt (Nat.lt_irrefl _),fun v hv => by simp [enqueuing,hfull] at hv⟩
    · have hcond : resumesStarted s (.addResume u created woken) = true ↔ s.state = .started := by
        simp [resumesStarted,hroom]
      rw [hcond]
      constructor
      · intro hp
        exact hp.pushes (Nat.lt_of_lt_of_eq (Nat.lt_succ_self _) (push_nextTask hpush).symm)
      · intro hstate
        exact ⟨fun _ => hstate,fun v hv hne => absurd hstate hne⟩

end ThreadManager

/-- Along a run tasks are pushed as they should be exactly when no `Add` comes back to
room in a manager that is not `STARTED` any more. -/
theorem pushes_started_iff (as : List Act) :
    ThreadManager.system.Along PushesStarted as ↔
      ThreadManager.system.Along (fun s a _ => resumesStarted s a) as := by
  refine System.along_congr (I := fun _ => True) ⟨trivial,fun _ _ _ _ _ => trivial⟩ ?_ as
  intro s a t _ h
  have hother : a.onPush = false → enqueuing s a = none → PushesStarted s a t := by
    intro ha hnone
    have hnext := ThreadManager.nextTask_eq ha h
    exact ⟨fun hlt => absurd hlt (hnext ▸ Nat.lt_irrefl _),
      fun v hv => by rw [hnone] at hv; cases hv⟩
  cases ThreadManager.step_to h with
  | add _ hadd => exact iff_of_true (ThreadManager.add_pushesStarted hadd) rfl
  | addResume => exact ThreadManager.addResume_pushesStarted_iff h
  | _ => exact iff_of_true (hother rfl rfl) rfl

/-- `Join` finds the queue full and an `Add` waiting. The worker takes the task and
signals. -/
def joinWhileFull : List Act :=
  [.setThreadFactory true,.start 0,.addWorker 0 [1],.startThread 0,.mapThread 0,.enter 1,
    .notifyManager 1 none,.addWorkerTest 0,.setPendingTaskCountMax 1,
    .add 2 5 0 0 0 0 true none,.add 3 6 0 0 0 0 true none,.stop 4 true,.stopSection 4,
    .take 1 0 (some 3)]

theorem waiting_add_pushes_joining :
    ¬ ∀ as, ThreadManager.system.Along PushesStarted as := by
  intro h
  have hpush := System.AlongFrom.after joinWhileFull
    (h (joinWhileFull ++ [.addResume 3 0 none])) rfl rfl
  exact absurd (hpush.pushes (by decide)) (by decide)

end MprMq.Threading
