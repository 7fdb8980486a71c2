import MprMq.Threading.IdleWorkers
set_option autoImplicit false

/-! Callers of `Add` that wait for room, and workers that wait for tasks. -/

namespace MprMq.Threading
open MprMq.Lib

namespace ThreadManager

/-- Who waits for room is in `Add`, under a limit; and with tasks in the queue a worker
that has registered is awake. -/
structure Waits (s : ThreadManager) : Prop where
  calls : ∀ u ∈ s.maxMonitor, (s.call u).inAdd = true
  once : s.maxMonitor.Nodup
  limited : s.maxMonitor ≠ [] → s.pendingTaskCountMax ≠ 0
  awake : s.tasks ≠ [] → ∀ w, (s.phase w).staying = true →
    ∃ v, (s.phase v).staying = true ∧ v ∉ s.monitor

def Notified (s : ThreadManager) (u : ThreadId) : Prop :=
  (s.call u).inAdd = true ∧ u ∉ s.maxMonitor

/-- Who waits for room waits behind a task, or behind a caller that is to push one. -/
structure RoomWaits (s : ThreadManager) : Prop extends Waits s where
  behind : s.maxMonitor ≠ [] → s.tasks ≠ [] ∨ ∃ u, s.Notified u

theorem full_tasks {s : ThreadManager} (h : s.full = true) :
    s.tasks ≠ [] ∧ s.pendingTaskCountMax ≠ 0 := by
  simp only [full,Bool.and_eq_true,decide_eq_true_eq] at h
  refine ⟨fun hnil => ?_,Nat.ne_of_gt h.1⟩
  rw [hnil] at h
  exact absurd h.1 (Nat.not_lt.mpr h.2)

theorem QueueFrame.roomWaits {s t : ThreadManager} (hf : QueueFrame s t) (hsound : s.core.Sound)
    (hs : s.RoomWaits) : t.RoomWaits where
  calls := fun u hu => by
    have hin := hs.calls u (hf.maxMonitor ▸ hu)
    rwa [(hf.inAdd u (s.call u) hin).mpr rfl]
  once := hf.maxMonitor ▸ hs.once
  limited := fun h => hf.limit ▸ hs.limited (hf.maxMonitor ▸ h)
  awake := hf.awake hsound hs.awake
  behind := fun h => by
    obtain htasks | ⟨u,hu,hu'⟩ := hs.behind (hf.maxMonitor ▸ h)
    · exact .inl (hf.tasks ▸ htasks)
    · refine .inr ⟨u,?_,hf.maxMonitor ▸ hu'⟩
      rwa [(hf.inAdd u (s.call u) hu).mpr rfl]

theorem Waits.addTest {s t : ThreadManager} {u : ThreadId} {runnable : RunnableId}
    {timeout expiration created : Int} {woken : Option ThreadId} (hs : s.Waits)
    (hsound : s.core.Sound)
    (h : s.addTest u runnable timeout expiration created woken = some t) : t.RoomWaits := by
  have hawake : t.Awake := .addTest hs.awake hsound h
  obtain ⟨hfull,rfl⟩ | ⟨-,hpush⟩ := addTest_cases h
  · obtain ⟨htasks,hlimit⟩ := full_tasks hfull
    refine ⟨⟨fun v hv => ?_,Waiters.nodup_park hs.once u,fun _ => hlimit,hawake⟩,
      fun _ => .inl htasks⟩
    by_cases he : v = u
    · simp [goto,he,CallPhase.inAdd]
    · simp only [goto,Function.update_of_ne he]
      exact hs.calls v ((Waiters.mem_park.mp hv).resolve_left he)
  · obtain ⟨m,rfl,-⟩ := push_cases hpush
    refine ⟨⟨fun v hv => ?_,Waiters.nodup_leave hs.once u,fun hne => ?_,hawake⟩,
      fun _ => .inl ?_⟩
    · obtain ⟨hne,hmem⟩ := (Waiters.mem_leave hs.once).mp hv
      simp only [pushed,ret,goto,record,Function.update_of_ne hne]
      exact hs.calls v hmem
    · obtain ⟨v,hv⟩ := List.exists_mem_of_ne_nil _ hne
      exact hs.limited (List.ne_nil_of_mem ((Waiters.mem_leave hs.once).mp hv).2)
    · simp [pushed,ret,goto,record]

theorem Waits.expire {s : ThreadManager} (hs : s.Waits) (now : Int) :
    (s.removeExpiredTasks now).Waits where
  calls := hs.calls
  once := hs.once
  limited := hs.limited
  awake := Awake.expire hs.awake now

theorem Waits.end_call {s : ThreadManager} (hs : s.Waits) {u : ThreadId}
    (hu : (s.call u).inAdd = false) (es : List Event) : ((s.goto u .none).record es).Waits where
  calls := fun v hv => by
    have hin := hs.calls v hv
    have hne : v ≠ u := fun he => by rw [he,hu] at hin; cases hin
    simpa [goto,record,Function.update_of_ne hne] using hin
  once := hs.once
  limited := hs.limited
  awake := hs.awake

theorem RoomWaits.end_call {s : ThreadManager} (hs : s.RoomWaits) {u : ThreadId}
    (hu : (s.call u).inAdd = false) (es : List Event) : ((s.goto u .none).record es).RoomWaits where
  toWaits := hs.toWaits.end_call hu es
  behind := fun h => by
    obtain htasks | ⟨v,hv,hv'⟩ := hs.behind h
    · exact .inl htasks
    · have hne : v ≠ u := fun he => by rw [he,hu] at hv; cases hv
      exact .inr ⟨v,by simpa [goto,record,Function.update_of_ne hne] using hv,hv'⟩

theorem RoomWaits.add {s t : ThreadManager} {u : ThreadId} {runnable : RunnableId}
    {timeout expiration now created : Int} {locked : Bool} {woken : Option ThreadId}
    (hs : s.RoomWaits) (hsound : s.core.Sound) (hu : (s.call u).inAdd = false)
    (h : s.add u runnable timeout expiration now created locked woken = some t) :
    t.RoomWaits := by
  obtain ⟨-,rfl⟩ | ⟨-,-,rfl⟩ | ⟨-,-,hfull,rfl⟩ | ⟨-,-,h⟩ := add_cases h
  · exact hs.end_call hu _
  · exact hs.end_call hu _
  · have hwaits := (hs.toWaits.expire now).end_call (u := u) hu
      [.threw u .add .tooManyPendingTasks]
    exact ⟨hwaits,fun _ => .inl (full_tasks hfull).1⟩
  · exact (hs.toWaits.expire now).addTest hsound h

theorem RoomWaits.addTimeout {s : ThreadManager} (hs : s.RoomWaits) {u : ThreadId}
    (hu : u ∈ s.maxMonitor) : (s.addTimeout u).RoomWaits := by
  have hleave := fun v => Waiters.mem_leave (t := u) (u := v) hs.once
  refine ⟨⟨fun v hv => ?_,Waiters.nodup_leave hs.once u,fun h => ?_,hs.awake⟩,fun _ => ?_⟩
  · obtain ⟨hne,hmem⟩ := (hleave v).mp hv
    simp only [ThreadManager.addTimeout,throw,goto,record,Function.update_of_ne hne]
    exact hs.calls v hmem
  · obtain ⟨v,hv⟩ := List.exists_mem_of_ne_nil _ h
    exact hs.limited (List.ne_nil_of_mem ((hleave v).mp hv).2)
  · obtain htasks | ⟨v,hv,hv'⟩ := hs.behind (List.ne_nil_of_mem hu)
    · exact .inl htasks
    · have hne : v ≠ u := fun he => hv' (he ▸ hu)
      refine .inr ⟨v,?_,fun hmem => hv' ((hleave v).mp hmem).2⟩
      simpa [ThreadManager.addTimeout,throw,goto,record,Function.update_of_ne hne] using hv

/-- `RemoveNextPending` does not take the last task from those that wait behind it. -/
theorem RoomWaits.removeNextPending {s : ThreadManager} (hs : s.RoomWaits) {u : ThreadId}
    (hu : (s.call u).inAdd = false) (hlast : s.tasks.length ≠ 1 ∨ s.maxMonitor = []) :
    (s.removeNextPending u).RoomWaits := by
  unfold ThreadManager.removeNextPending
  split
  case isTrue => exact hs.end_call hu _
  case isFalse =>
    split
    case h_1 => exact hs.end_call hu _
    case h_2 task rest htasks =>
      have hrest : ({ s with tasks := rest }.record [.removed task.id]).RoomWaits := by
        refine ⟨⟨hs.calls,hs.once,hs.limited,fun _ => hs.awake (by simp [htasks])⟩,fun h => ?_⟩
        refine .inl (fun hnil => ?_)
        have hnil : rest = [] := hnil
        obtain hlen | hnone := hlast
        · simp [htasks,hnil] at hlen
        · exact h hnone
      exact hrest.end_call hu _

/-- A worker that has left the queue without a task wakes one of those that wait. -/
theorem RoomWaits.take {s t : ThreadManager} {w : ThreadId} {now : Int}
    {woken : Option ThreadId} (hs : s.RoomWaits) (hg : s.core.Growing)
    (h : s.take w now woken = some t) : t.RoomWaits := by
  have hawake : t.Awake := .take hg h
  obtain ⟨-,⟨-,rfl⟩ | ⟨-,-,rfl⟩ | ⟨-,-,htask⟩⟩ := take_cases h
  · exact ⟨⟨hs.calls,hs.once,hs.limited,hawake⟩,hs.behind⟩
  · exact ⟨⟨hs.calls,hs.once,hs.limited,hawake⟩,hs.behind⟩
  · obtain ⟨u,m,rfl,hu,hm⟩ := takeTask_cases htask
    have hfacts : u.call = s.call ∧ u.pendingTaskCountMax = s.pendingTaskCountMax := by
      obtain ⟨-,rfl⟩ | ⟨task,rest,-,rfl⟩ := hu <;> exact ⟨rfl,rfl⟩
    obtain ⟨hcall,hlimit⟩ := hfacts
    have hsub : ∀ v ∈ m, v ∈ s.maxMonitor := by
      obtain ⟨-,-,hm⟩ | ⟨-,rfl⟩ := hm
      · exact Waiters.notify_subset hm
      · exact fun _ hv => hv
    have hwaiting : m ≠ [] → s.maxMonitor ≠ [] := by
      intro hne
      obtain ⟨v,hv⟩ := List.exists_mem_of_ne_nil _ hne
      exact List.ne_nil_of_mem (hsub v hv)
    refine ⟨⟨fun v hv => ?_,?_,fun hne => ?_,hawake⟩,fun hne => ?_⟩
    · exact hcall ▸ hs.calls v (hsub v hv)
    · obtain ⟨-,-,hm⟩ | ⟨-,rfl⟩ := hm
      · exact Waiters.nodup_notify hm hs.once
      · exact hs.once
    · exact hlimit ▸ hs.limited (hwaiting hne)
    · by_cases hleft : u.tasks = []
      · obtain ⟨-,-,hm⟩ | ⟨hno,-⟩ := hm
        · obtain ⟨v,hv,hv'⟩ := Waiters.notify_wakes hm hs.once (hwaiting hne)
          exact .inr ⟨v,hcall ▸ hs.calls v hv,hv'⟩
        · exact absurd ⟨hs.limited (hwaiting hne),by simp [hleft]⟩ hno
      · exact .inl hleft

theorem RoomWaits.finish {s : ThreadManager} (hs : s.RoomWaits) (hsound : s.core.Sound)
    {w : ThreadId} {task : Task} (hw : s.phase w = .executing task) :
    (s.finish w task).RoomWaits :=
  ⟨⟨hs.calls,hs.once,hs.limited,Awake.finish hsound hw⟩,hs.behind⟩

end ThreadManager

def Act.besideRoom : Act → Bool
  | .removeExpiredTasks .. => false
  | a => !a.onStop

/-- No one takes the last task from under those that wait for room, or lifts the limit
there. -/
def leavesWaiters (s : ThreadManager) : Act → Bool
  | .removeNextPending _ => s.tasks.length ≠ 1 || s.maxMonitor.isEmpty
  | .setPendingTaskCountMax value => value ≠ 0 || s.maxMonitor.isEmpty
  | _ => true

namespace ThreadManager

theorem RoomWaits.step {s t : ThreadManager} {a : Act} (hs : s.RoomWaits) (hg : s.Grown)
    (ha : a.besideRoom = true) (hc : leavesWaiters s a = true) (h : s.step a = some t) :
    t.RoomWaits := by
  have hsound := hg.core.sound
  by_cases hqueue : a.onQueue = false
  · exact (queue_frame hqueue h).roomWaits hsound hs
  cases step_to h with
  | removeExpiredTasks => cases ha
  | add hcan hadd => exact hs.add hsound (inAdd_of_canCall hcan) hadd
  | addResume _ htest => exact hs.toWaits.addTest hsound htest
  | addTimeout _ _ hmem => exact hs.addTimeout hmem
  | removeNextPending hcan =>
    simp only [leavesWaiters,Bool.or_eq_true,decide_eq_true_eq,List.isEmpty_iff] at hc
    exact hs.removeNextPending (inAdd_of_canCall hcan) hc
  | setPendingTaskCountMax value =>
    simp only [leavesWaiters,Bool.or_eq_true,decide_eq_true_eq,List.isEmpty_iff] at hc
    exact ⟨⟨hs.calls,hs.once,fun hne => hc.resolve_right hne,hs.awake⟩,hs.behind⟩
  | take htake => exact hs.take hg.core htake
  | finish hw => exact hs.finish hsound hw
  | _ => exact absurd rfl hqueue

theorem roomWaits_init : init.RoomWaits := by
  refine ⟨⟨fun _ h => ?_,List.nodup_nil,fun h => absurd rfl h,fun h => absurd rfl h⟩,
    fun h => absurd rfl h⟩
  cases h

/-- A caller of `Add` without a time limit waits un-notified, there is room for its task,
and every registered worker waits un-notified for one. -/
def Forgotten (s : ThreadManager) : Prop :=
  ∃ u runnable expiration, s.call u = .adding runnable 0 expiration ∧ u ∈ s.maxMonitor ∧
    s.full = false ∧ 0 < s.core.registered ∧
    ∀ w, (s.phase w).registered = true → w ∈ s.monitor

/-- Then another caller has been notified and is to get the mutex. -/
theorem RoomWaits.not_forgotten {s : ThreadManager} (hs : s.RoomWaits) (hg : s.Grown)
    (h : s.Forgotten) : ∃ v, s.Notified v := by
  obtain ⟨u,runnable,expiration,-,hmem,-,hone,hparked⟩ := h
  obtain ⟨w,hstay⟩ := hg.some_staying hone
  obtain htasks | hnotified := hs.behind (List.ne_nil_of_mem hmem)
  · obtain ⟨v,hv,hv'⟩ := hs.awake htasks w hstay
    exact absurd (hparked v (WorkerPhase.registered_of_staying hv)) hv'
  · exact hnotified

end ThreadManager

/-- In a run of `Start`, `AddWorker`, `Add`, `RemoveNextPending`, the setters and the
workers that leaves the waiters a task and a limit: whenever a caller waits un-notified for
room that is there while all workers sleep, another caller was notified and has still to
get the mutex. -/
theorem waiting_add_not_forgotten {as : List Act} (has : ∀ a ∈ as, a.besideRoom = true)
    (hc : ThreadManager.system.Along (fun s a _ => leavesWaiters s a) as) :
    ThreadManager.system.Along (fun _ _ t => t.Forgotten → ∃ v, t.Notified v) as := by
  refine (System.AlongFrom.labelled has hc).guarded
    (I := fun s => s.Grown ∧ s.RoomWaits) ?_
    ⟨ThreadManager.grown_init,ThreadManager.roomWaits_init⟩
  intro s a t ⟨hg,hs⟩ h ⟨ha,hca⟩
  have hstop : a.onStop = false := by
    cases a <;> first | rfl | cases ha
  have hgrown := hg.step hstop h
  have ht := hs.step hg ha hca h
  exact ⟨⟨hgrown,ht⟩,ht.not_forgotten hgrown⟩

/-- A limit of one task and two callers behind the one in the queue; the worker takes it and
signals the first of them. -/
def twoWaiting : List Act :=
  [.setThreadFactory true,.start 0,.addWorker 0 [1],.startThread 0,.mapThread 0,.enter 1,
    .notifyManager 1 none,.addWorkerTest 0,.setPendingTaskCountMax 1,
    .add 2 5 0 0 0 0 true none,.add 3 6 0 0 0 0 true none,.add 4 7 0 0 0 0 true none,
    .take 1 0 (some 3),.finish 1]

theorem two_waiting_one_notified : ThreadManager.system.Along
    (fun _ _ t => t.Forgotten → ∃ v, t.Notified v) (twoWaiting ++ [.take 1 0 none]) :=
  waiting_add_not_forgotten (by decide) (System.alongFrom_of_check leavesWaiters (by decide))

def workerAsleep : ThreadManager :=
  (ThreadManager.system.run (twoWaiting ++ [.take 1 0 none])).getD .init

theorem workerAsleep_sound : workerAsleep.core.Sound := by
  unfold workerAsleep
  cases hrun : ThreadManager.system.run (twoWaiting ++ [.take 1 0 none]) with
  | none => exact ThreadManager.sound_init
  | some t => exact ThreadManager.sound_inductive.run hrun

theorem workerAsleep_forgotten : workerAsleep.Forgotten := by
  have hthreads : workerAsleep.threads = [1] := by decide
  refine ⟨4,7,0,by decide,by decide,by decide,by decide,fun w hw => ?_⟩
  have hlisted : w ∈ workerAsleep.threads := by
    refine workerAsleep_sound.listed w (fun habsent => ?_)
    have habsent : workerAsleep.phase w = .absent := habsent
    rw [habsent] at hw
    cases hw
  rw [hthreads] at hlisted
  obtain rfl := List.mem_singleton.mp hlisted
  decide

/-- The worker goes to sleep before the caller it has signalled has pushed. -/
theorem second_waiter_parked :
    ¬ ∀ as, (∀ a ∈ as, a.besideRoom = true) →
      ThreadManager.system.Along (fun _ _ t => ¬ t.Forgotten) as := by
  intro h
  exact System.AlongFrom.after twoWaiting (h (twoWaiting ++ [.take 1 0 none]) (by decide)) rfl
    rfl workerAsleep_forgotten

end MprMq.Threading
