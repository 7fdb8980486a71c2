import MprMq.Threading.TaskLedger
set_option autoImplicit false

/-! The queue: in which order tasks leave it, and how long it gets. -/

namespace MprMq.Threading
open MprMq.Lib

def Act.hands : Act → Bool
  | .removeNextPending .. | .take .. => true
  | _ => false

def Act.uncounted (a : Act) (n : Nat) : Nat := if a = .expiredTaskCount then 0 else n

def Event.expiry : Event → Option (TaskId × Option CallbackId)
  | .expired id callback => some (id,callback)
  | _ => none

namespace ThreadManager

/-- Who has been handed `taken`, behind the tasks `gone` that have expired. -/
inductive Handed (t : ThreadManager) : Act → List Task → List Task → Prop where
  | removal (u : ThreadId) (taken : List Task) : Handed t (.removeNextPending u) [] taken
  | worker {w : ThreadId} {now : Int} (woken : Option ThreadId) (gone : List Task) {task : Task}
      (hw : t.phase w = .executing task.take) (htask : task.expired now = false) :
      Handed t (.take w now woken) gone [task]
  | nothing {w : ThreadId} (now : Int) (woken : Option ThreadId) (gone : List Task)
      (hw : (t.phase w).task = none) : Handed t (.take w now woken) gone []
  | other {a : Act} (gone : List Task) (ha : a.hands = false) : Handed t a gone []

def expiries (s : ThreadManager) : List (TaskId × Option CallbackId) :=
  s.log.filterMap Event.expiry

/-- What one step does to the queue: at its front `gone` expire and `taken` are handed to
someone, `kept` stay, and `new` is what an `Add` that found room puts behind them. -/
structure QueueStep (s : ThreadManager) (a : Act) (t : ThreadManager)
    (gone taken kept new : List Task) : Prop where
  before : s.tasks = gone ++ (taken ++ kept)
  after : t.tasks = kept ++ new
  next : t.nextTask = s.nextTask+new.length
  fresh : new = [] ∨ ∃ task, new = [task] ∧ task.id = s.nextTask ∧
    (0 < s.pendingTaskCountMax → kept.length < s.pendingTaskCountMax)
  limit : t.pendingTaskCountMax = s.pendingTaskCountMax ∨ ∃ value, a = .setPendingTaskCountMax value
  handed : t.Handed a gone taken
  expiries : t.expiries = s.expiries ++ gone.map (fun task => (task.id,s.expireCallback))
  counted : t.expiredCount = a.uncounted s.expiredCount+gone.length

theorem QueueStep.keep {s t : ThreadManager} {a : Act} (htasks : t.tasks = s.tasks)
    (hnext : t.nextTask = s.nextTask)
    (hlimit : t.pendingTaskCountMax = s.pendingTaskCountMax ∨
      ∃ value, a = .setPendingTaskCountMax value)
    (hhanded : t.Handed a [] []) (hexpiries : t.expiries = s.expiries)
    (hcount : t.expiredCount = a.uncounted s.expiredCount) :
    ∃ gone taken kept new, QueueStep s a t gone taken kept new :=
  ⟨[],[],s.tasks,[],rfl,by simp [htasks],by simp [hnext],.inl rfl,hlimit,hhanded,
    by simp [hexpiries],by simp [hcount]⟩

theorem expire_tasks (s : ThreadManager) (now : Int) :
    s.tasks = s.tasks.takeWhile (Task.expired now) ++ (s.removeExpiredTasks now).tasks :=
  List.takeWhile_append_dropWhile.symm

theorem expire_expiries (s : ThreadManager) (now : Int) :
    (s.removeExpiredTasks now).expiries = s.expiries ++
      (s.tasks.takeWhile (Task.expired now)).map (fun task => (task.id,s.expireCallback)) := by
  simp [expiries,removeExpiredTasks,List.filterMap_map,Function.comp_def,Event.expiry]

theorem call_expiries {es : List Event} (hes : ∀ e ∈ es, e.isCall = true) :
    es.filterMap Event.expiry = [] := by
  rw [List.filterMap_eq_nil_iff]
  intro e he
  have hcall := hes e he
  cases e <;> first | rfl | cases hcall

theorem QueueStep.expire {s t : ThreadManager} {a : Act} (now : Int) {taken kept : List Task}
    (htasks : (s.removeExpiredTasks now).tasks = taken ++ kept) (hkept : t.tasks = kept)
    (hnext : t.nextTask = s.nextTask) (hlimit : t.pendingTaskCountMax = s.pendingTaskCountMax)
    (hhanded : t.Handed a (s.tasks.takeWhile (Task.expired now)) taken)
    (hexpiries : t.expiries = (s.removeExpiredTasks now).expiries)
    (hcount : t.expiredCount = a.uncounted s.expiredCount+
      (s.tasks.takeWhile (Task.expired now)).length) :
    ∃ gone taken kept new, QueueStep s a t gone taken kept new :=
  ⟨s.tasks.takeWhile (Task.expired now),taken,kept,[],htasks ▸ s.expire_tasks now,
    by simp [hkept],by simp [hnext],.inl rfl,.inl hlimit,hhanded,
    hexpiries.trans (s.expire_expiries now),hcount⟩

theorem addTest_queue {s t : ThreadManager} {u : ThreadId} {runnable : RunnableId}
    {timeout expiration created : Int} {woken : Option ThreadId}
    (h : s.addTest u runnable timeout expiration created woken = some t) :
    ∃ new, t.tasks = s.tasks ++ new ∧ t.nextTask = s.nextTask+new.length ∧
      (new = [] ∨ ∃ task, new = [task] ∧ task.id = s.nextTask ∧
        (0 < s.pendingTaskCountMax → s.tasks.length < s.pendingTaskCountMax)) ∧
      t.pendingTaskCountMax = s.pendingTaskCountMax ∧ t.expiries = s.expiries ∧
      t.expiredCount = s.expiredCount := by
  obtain ⟨-,rfl⟩ | ⟨hroom,hpush⟩ := addTest_cases h
  · exact ⟨[],by simp [goto],rfl,.inl rfl,rfl,rfl,rfl⟩
  · obtain ⟨m,rfl,-⟩ := push_cases hpush
    refine ⟨[Task.new s.nextTask runnable expiration created],rfl,rfl,
      .inr ⟨_,rfl,rfl,fun hpos => ?_⟩,rfl,?_,rfl⟩
    · simpa [full,hpos] using hroom
    · simp [expiries,pushed,ret,goto,record,Event.expiry]

theorem add_queue {s t : ThreadManager} {u : ThreadId} {runnable : RunnableId}
    {timeout expiration now created : Int} {locked : Bool} {woken : Option ThreadId}
    (h : s.add u runnable timeout expiration now created locked woken = some t) :
    ∃ gone taken kept new,
      QueueStep s (.add u runnable timeout expiration now created locked woken) t
        gone taken kept new := by
  have hthrow : ∀ (r : ThreadManager) (e : Exception),
      (r.throw u .add e).expiries = r.expiries := by
    intro r e
    simp [expiries,throw,goto,record,Event.expiry]
  obtain ⟨-,rfl⟩ | ⟨-,-,rfl⟩ | ⟨-,-,-,rfl⟩ | ⟨-,-,h⟩ := add_cases h
  · exact QueueStep.keep rfl rfl (.inl rfl) (.other _ rfl) (hthrow s _) rfl
  · exact QueueStep.keep rfl rfl (.inl rfl) (.other _ rfl) (hthrow s _) rfl
  · exact QueueStep.expire now rfl rfl rfl rfl (.other _ rfl) (hthrow _ _) rfl
  · obtain ⟨new,htasks,hnext,hfresh,hlimit,hexpiries,hcount⟩ := addTest_queue h
    exact ⟨_,[],_,new,s.expire_tasks now,htasks,hnext,hfresh,.inl hlimit,.other _ rfl,
      hexpiries.trans (s.expire_expiries now),hcount⟩

theorem take_queue {s t : ThreadManager} {w : ThreadId} {now : Int} {woken : Option ThreadId}
    (h : s.take w now woken = some t) :
    ∃ gone taken kept new, QueueStep s (.take w now woken) t gone taken kept new := by
  obtain ⟨-,⟨-,rfl⟩ | ⟨-,-,rfl⟩ | ⟨-,-,htask⟩⟩ := take_cases h
  · exact QueueStep.keep rfl rfl (.inl rfl) (.nothing _ _ _ (by simp [move,WorkerPhase.task])) rfl
      rfl
  · exact QueueStep.keep rfl rfl (.inl rfl) (.nothing _ _ _ (by simp [move,WorkerPhase.task])) rfl
      rfl
  · obtain ⟨u,m,rfl,⟨-,rfl⟩ | ⟨task,rest,htasks,rfl⟩,-⟩ := takeTask_cases htask
    · exact QueueStep.expire now rfl rfl rfl rfl
        (.nothing _ _ _ (by simp [move,WorkerPhase.task])) rfl rfl
    · have hfront : s.tasks.dropWhile (Task.expired now) = [task] ++ rest := htasks
      have hlate : task.expired now = false := by
        have := List.head_dropWhile_not (Task.expired now) (l := s.tasks) (by simp [hfront])
        simpa [hfront] using this
      exact QueueStep.expire now hfront rfl rfl rfl
        (.worker _ _ (by simp [move]) hlate) rfl rfl

theorem removeNextPending_queue (s : ThreadManager) (u : ThreadId) :
    ∃ gone taken kept new,
      QueueStep s (.removeNextPending u) (s.removeNextPending u) gone taken kept new := by
  obtain ⟨-,heq⟩ | ⟨-,heq⟩ | ⟨task,rest,htasks,heq⟩ := s.removeNextPending_cases u <;> rw [heq]
  · exact QueueStep.keep rfl rfl (.inl rfl) (.removal _ _)
      (by simp [expiries,throw,goto,record,Event.expiry]) rfl
  · exact QueueStep.keep rfl rfl (.inl rfl) (.removal _ _)
      (by simp [expiries,ret,goto,record,Event.expiry]) rfl
  · exact ⟨[],[task],rest,[],htasks,by simp [ret,goto,record],rfl,.inl rfl,.inl rfl,
      .removal _ _,by simp [expiries,ret,goto,record,Event.expiry],rfl⟩

/-- Off the queue only `ExpiredTaskCount` touches the counter. -/
theorem count_frame {s t : ThreadManager} {a : Act} (ha : a.onQueue = false)
    (h : s.step a = some t) : t.expiredCount = a.uncounted s.expiredCount := by
  cases step_to h with
  | add | addResume | addTimeout | removeNextPending | removeExpiredTasks
  | setPendingTaskCountMax | take | finish => cases ha
  | start _ hstart =>
    obtain ⟨-,rfl⟩ | rfl | rfl := start_cases hstart <;> rfl
  | removeWorker _ hremove | stopRemove _ hremove =>
    obtain ⟨-,rfl⟩ | ⟨-,m,-,rfl⟩ := removeWorker_cases hremove <;> rfl
  | startThread =>
    unfold startThread
    split <;> rfl
  | addWorkerTest =>
    unfold addWorkerTest
    split <;> rfl
  | removeWorkerTest =>
    unfold removeWorkerTest
    split
    · rfl
    · split <;> rfl
  | stop =>
    unfold stop
    split <;> rfl
  | stopSection =>
    unfold stopSection
    split <;> rfl
  | enter =>
    unfold enter
    split <;> rfl
  | exit _ hexit =>
    obtain ⟨m,rfl⟩ := exit_cases hexit
    rfl
  | _ => rfl

theorem queue_step {s t : ThreadManager} {a : Act} (h : s.step a = some t) :
    ∃ gone taken kept new, QueueStep s a t gone taken kept new := by
  by_cases hqueue : a.onQueue = false
  · have hf := queue_frame hqueue h
    obtain ⟨es,hlog,hes⟩ := hf.log
    have hhands : a.hands = false := by cases a <;> first | rfl | cases hqueue
    refine QueueStep.keep hf.tasks hf.nextTask (.inl hf.limit) (.other _ hhands) ?_
      (count_frame hqueue h)
    simp [expiries,hlog,call_expiries hes]
  cases step_to h with
  | add _ hadd => exact add_queue hadd
  | addResume _ htest =>
    obtain ⟨new,htasks,hnext,hfresh,hlimit,hexpiries,hcount⟩ := addTest_queue htest
    exact ⟨[],[],s.tasks,new,rfl,htasks,hnext,hfresh,.inl hlimit,.other _ rfl,by simp [hexpiries],
      hcount⟩
  | addTimeout =>
    exact QueueStep.keep rfl rfl (.inl rfl) (.other _ rfl)
      (by simp [expiries,addTimeout,throw,goto,record,Event.expiry]) rfl
  | removeNextPending => exact removeNextPending_queue s _
  | removeExpiredTasks now =>
    exact QueueStep.expire now rfl rfl rfl rfl (.other _ rfl) rfl rfl
  | setPendingTaskCountMax value =>
    exact QueueStep.keep rfl rfl (.inr ⟨value,rfl⟩) (.other _ rfl) rfl rfl
  | take htake => exact take_queue htake
  | finish =>
    refine QueueStep.keep rfl rfl (.inl rfl) (.other _ rfl) ?_ rfl
    simp only [expiries,finish,record,move,List.filterMap_append]
    split <;> simp [Event.expiry]
  | _ => exact absurd rfl hqueue

def leaves (s t : ThreadManager) : List TaskId :=
  (s.tasks.map Task.id).filter (fun id => id ∉ t.tasks.map Task.id)

/-- Exactly the tasks at the front have left. -/
theorem QueueStep.leaves {s t : ThreadManager} {a : Act} {gone taken kept new : List Task}
    (hq : QueueStep s a t gone taken kept new) (hs : s.ledger.Tallied) :
    s.leaves t = gone.map Task.id ++ taken.map Task.id := by
  have hids : s.tasks.map Task.id =
      (gone.map Task.id ++ taken.map Task.id) ++ kept.map Task.id := by
    rw [hq.before,List.map_append,List.map_append,List.append_assoc]
  have hnodup := hs.nodup
  have hbelow := hs.below
  rw [show s.ledger.tasks = s.tasks from rfl,hids] at hnodup hbelow
  have hapart := (List.nodup_append.mp hnodup).2.2
  have hgone : ∀ id ∈ gone.map Task.id ++ taken.map Task.id, id ∉ t.tasks.map Task.id := by
    intro id hid hmem
    rw [hq.after,List.map_append,List.mem_append] at hmem
    obtain hkept | hnew := hmem
    · exact hapart id hid id hkept rfl
    · obtain rfl | ⟨task,rfl,htask,-⟩ := hq.fresh
      · cases hnew
      · obtain rfl := List.mem_singleton.mp hnew
        exact absurd (hbelow _ (List.mem_append_left _ hid)) (by simp [htask,ledger])
  have hkept : ∀ id ∈ kept.map Task.id, id ∈ t.tasks.map Task.id := by
    intro id hid
    rw [hq.after,List.map_append]
    exact List.mem_append_left _ hid
  unfold ThreadManager.leaves
  rw [hids,List.filter_append,List.filter_eq_self.mpr (fun id hid => decide_eq_true (hgone id hid)),
    List.filter_eq_nil_iff.mpr (fun id hid => by simpa using hkept id hid),List.append_nil]

/-- The tasks that have left the queue so far, in the order in which they did. -/
def departed (left : List TaskId) (s : ThreadManager) (_ : Act) (t : ThreadManager) :
    List TaskId := left ++ s.leaves t

/-- Each task that was pushed is in one place, with a worker that counts if it is held; no
run of a task comes on top of another, and the tasks leave the queue as they were pushed. -/
structure TasksInPlace (s : ThreadManager) (left : List TaskId) : Prop where
  place : ∀ id, .pushed id ∈ s.log → s.ledger.places id = 1
  held : ∀ w task, s.phase w = .executing task → w ∈ s.threads
  once : ∀ id, s.ledger.finished id+s.ledger.holders id ≤ 1
  order : left ++ s.tasks.map Task.id = s.log.filterMap Event.pushId

/-- Task ids are numbers in the order of the pushes: behind those that have left come those
that wait. -/
structure InOrder (s : ThreadManager) (left : List TaskId) : Prop where
  sound : s.core.Sound
  kept : s.TasksKept
  tallied : s.ledger.Tallied
  recorded : s.ledger.Recorded
  order : left ++ s.tasks.map Task.id = List.range s.nextTask

theorem InOrder.place {s : ThreadManager} {left : List TaskId} (hs : s.InOrder left) :
    s.TasksInPlace left where
  place := fun id hid => by
    have hmem : id ∈ s.log.filterMap Event.pushId := List.mem_filterMap.mpr ⟨_,hid,rfl⟩
    have hrecorded : s.log.filterMap Event.pushId = List.range s.nextTask := hs.recorded
    rw [hrecorded,List.mem_range] at hmem
    rw [hs.tallied.once id]
    exact if_pos hmem
  held := fun w task hw => hs.sound.mem_of_phase hw (by simp)
  once := fun id => by
    have hplaces := hs.tallied.places_le id
    unfold Ledger.places at hplaces
    omega
  order := hs.order.trans hs.recorded.symm

theorem InOrder.step {s t : ThreadManager} {a : Act} {left : List TaskId} (hs : s.InOrder left)
    (h : s.step a = some t) : t.InOrder (s.departed left a t) := by
  have hmoves := ledger_step hs.sound hs.kept h
  obtain ⟨gone,taken,kept,new,hq⟩ := queue_step h
  refine ⟨sound_inductive.step s a t hs.sound h,hs.kept.step h,
    Ledger.Moves.keep (fun _ _ hl hm => hl.move hm) hs.tallied hmoves,
    Ledger.Moves.keep (fun _ _ hl hm => hl.move hm) hs.recorded hmoves,?_⟩
  have hold : (left ++ s.leaves t) ++ kept.map Task.id = List.range s.nextTask := by
    rw [← hs.order,hq.leaves hs.tallied,hq.before]
    simp only [List.map_append,List.append_assoc]
  rw [departed,hq.after,List.map_append,← List.append_assoc,hold,hq.next]
  obtain rfl | ⟨task,rfl,htask,-⟩ := hq.fresh
  · simp
  · simp [htask,List.range_succ]

theorem inOrder_inductive :
    (system.watch [] departed).Inductive (fun p => p.1.InOrder p.2) where
  init := by
    refine ⟨sound_inductive.init,tasksKept_inductive.init,⟨List.nodup_nil,fun id => ?_⟩,rfl,rfl⟩
    rfl
  step := fun s a t hs h => by
    obtain ⟨hstep,hleft⟩ := System.watch_step h
    rw [hleft]
    exact hs.step hstep

/-- The limit on the queue, and what it holds. -/
structure Within (max : Nat) (s : ThreadManager) : Prop where
  limit : s.pendingTaskCountMax = max
  length : s.tasks.length ≤ max

theorem Within.step {max : Nat} (hpos : 0 < max) {s t : ThreadManager} {a : Act}
    (hs : Within max s) (ha : ∀ value, a ≠ .setPendingTaskCountMax value)
    (h : s.step a = some t) : Within max t := by
  obtain ⟨gone,taken,kept,new,hq⟩ := queue_step h
  have hlimit : t.pendingTaskCountMax = max := by
    obtain heq | ⟨value,rfl⟩ := hq.limit
    · rw [heq,hs.limit]
    · exact absurd rfl (ha value)
  refine ⟨hlimit,?_⟩
  have hlen := congrArg List.length hq.before
  have hlen' := hs.length
  rw [List.length_append,List.length_append] at hlen
  rw [hq.after,List.length_append]
  obtain rfl | ⟨task,rfl,-,hroom⟩ := hq.fresh
  · simp only [List.length_nil]
    omega
  · rw [hs.limit] at hroom
    exact hroom hpos

structure Unopened (s : ThreadManager) : Prop where
  tasks : s.tasks = []
  calls : ∀ u, (s.call u).inAdd = false

theorem Unopened.end_call {s : ThreadManager} (hs : s.Unopened) (u : ThreadId)
    (es : List Event) : ((s.goto u .none).record es).Unopened where
  tasks := hs.tasks
  calls := by
    simp only [record,goto]
    rw [Function.forall_update_iff s.call (fun _ p => p.inAdd = false)]
    exact ⟨rfl,fun v _ => hs.calls v⟩

theorem QueueFrame.unopened {s t : ThreadManager} (hf : QueueFrame s t) (hs : s.Unopened) :
    t.Unopened where
  tasks := hf.tasks.trans hs.tasks
  calls := fun u => by
    by_contra hin
    have hu : s.call u = t.call u := (hf.inAdd u _ (by simpa using hin)).mp rfl
    exact hin (hu ▸ hs.calls u)

/-- A manager that is not started takes no task in. -/
theorem Unopened.step {s t : ThreadManager} {a : Act} (hs : s.Unopened)
    (hstate : s.state ≠ .started) (h : s.step a = some t) : t.Unopened := by
  by_cases hqueue : a.onQueue = false
  · exact (queue_frame hqueue h).unopened hs
  have hin : ∀ {u : ThreadId} {runnable : RunnableId} {timeout expiration : Int},
      s.call u ≠ .adding runnable timeout expiration := by
    intro u runnable timeout expiration hu
    have := hs.calls u
    rw [hu] at this
    cases this
  cases step_to h with
  | @add u _ _ _ _ _ _ _ _ _ hadd =>
    obtain ⟨-,rfl⟩ | ⟨-,-,rfl⟩ | ⟨-,hstarted,-⟩ | ⟨-,hstarted,-⟩ := add_cases hadd
    · exact hs.end_call u _
    · exact hs.end_call u _
    · exact absurd hstarted hstate
    · exact absurd hstarted hstate
  | addResume hu => exact absurd hu hin
  | addTimeout hu => exact absurd hu hin
  | @removeNextPending u =>
    unfold removeNextPending
    rw [if_pos hstate]
    exact hs.end_call u _
  | removeExpiredTasks now => exact ⟨by simp [removeExpiredTasks,hs.tasks],hs.calls⟩
  | setPendingTaskCountMax => exact ⟨hs.tasks,hs.calls⟩
  | take htake =>
    obtain ⟨-,⟨-,rfl⟩ | ⟨-,-,rfl⟩ | ⟨-,hne,-⟩⟩ := take_cases htake
    · exact ⟨hs.tasks,hs.calls⟩
    · exact ⟨hs.tasks,hs.calls⟩
    · exact absurd hs.tasks hne
  | finish => exact ⟨hs.tasks,hs.calls⟩
  | _ => exact absurd rfl hqueue

theorem Unopened.run {pre : List Act} (hpre : system.Always (fun s => s.state ≠ .started) pre)
    {s : ThreadManager} (h : system.run pre = some s) : s.Unopened := by
  have halong : system.AlongFrom (fun _ _ t => t.state ≠ .started) system.init pre := hpre.2
  refine (halong.keeps (I := fun s => s.state ≠ .started ∧ s.Unopened) ?_ ?_ h).2
  · exact fun s a t hs h ht => ⟨ht,hs.2.step hs.1 h⟩
  · exact ⟨hpre.1,rfl,fun _ => rfl⟩

end ThreadManager

/-- In every run each task that was pushed is in one place, is run once at most, and leaves
the queue in its turn. -/
theorem tasks_in_place (as : List Act) :
    (ThreadManager.system.watch [] ThreadManager.departed).Always
      (fun p => p.1.TasksInPlace p.2) as :=
  ThreadManager.inOrder_inductive.always (fun _ hs => hs.place) as

/-- A limit set before the start and left alone is never exceeded. -/
theorem queue_within_limit {max : Nat} (hpos : 0 < max) {pre post : List Act}
    (hpre : ThreadManager.system.Always (fun s => s.state ≠ .started) pre)
    (hpost : ∀ a ∈ post, ∀ value, a ≠ .setPendingTaskCountMax value) :
    ThreadManager.system.Always (fun s => s.tasks.length ≤ max)
      (pre ++ .setPendingTaskCountMax max :: post) := by
  refine ⟨Nat.zero_le max,System.AlongFrom.append ?_ ?_⟩
  · refine System.AlongFrom.guarded (I := fun s => s.state ≠ .started ∧ s.Unopened) ?_
      ⟨hpre.1,rfl,fun _ => rfl⟩ hpre.2
    intro s a t hs h ht
    have hopen := hs.2.step hs.1 h
    exact ⟨⟨ht,hopen⟩,by simp [hopen.tasks]⟩
  · intro s hs t h
    have hopen := ThreadManager.Unopened.run hpre hs
    have hfirst : ThreadManager.Within max t := by
      obtain rfl := Option.some.inj h
      exact ⟨rfl,by simp [hopen.tasks]⟩
    refine ⟨hfirst.length,System.alongFrom_labelled ?_ (fun u hu => hu.length) hfirst hpost⟩
    exact fun u a v ha hu h => hu.step hpos ha h

/-- Two callers wait for room for one task; the one that is woken finds it gone again. -/
def roomTaken : List Act :=
  [.start 0,.addWorker 0 [1],.startThread 0,.mapThread 0,.enter 1,.notifyManager 1 none,
    .addWorkerTest 0,.add 2 5 0 0 0 0 true none,.add 3 6 0 0 0 0 true none,
    .add 4 7 0 0 0 0 true none,.take 1 0 (some 3),.add 5 8 0 0 0 0 true none,.addResume 3 0 none,
    .addResume 4 0 none,.finish 1,.take 1 0 (some 4),.addResume 4 0 none]

theorem one_task_at_a_time : ThreadManager.system.Always (fun s => s.tasks.length ≤ 1)
    ([.setThreadFactory true] ++ .setPendingTaskCountMax 1 :: roomTaken) := by
  refine queue_within_limit (by decide) ⟨by decide,fun t h => ?_⟩ (by simp [roomTaken])
  obtain rfl := Option.some.inj h
  exact ⟨by decide,trivial⟩

end MprMq.Threading
