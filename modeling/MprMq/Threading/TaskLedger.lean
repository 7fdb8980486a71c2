import Mathlib.Logic.Relation
import MprMq.Threading.TaskPlaces
set_option autoImplicit false

/-! The tasks on their own: which wait in the queue, which worker holds which, and what is
recorded of them. `Ledger.Move` is all that can happen to them, and whatever the manager
does to its tasks is a row of moves. -/

namespace MprMq.Threading
open MprMq.Lib

structure Ledger where
  tasks : List Task
  nextTask : TaskId
  threads : List ThreadId
  held : ThreadId → Option Task
  log : List Event

def WorkerPhase.task : WorkerPhase → Option Task
  | .executing task => some task
  | _ => none

def Event.pushId : Event → Option TaskId
  | .pushed id => some id
  | _ => none

def Event.isExpiry (id : TaskId) : Event → Bool
  | .expired id' _ => id' = id
  | _ => false

namespace Ledger

def queued (l : Ledger) (id : TaskId) : Nat := l.tasks.countP (fun task => task.id = id)

def holders (l : Ledger) (id : TaskId) : Nat :=
  population l.held (fun o => o.any (fun task => task.id = id)) l.threads

/-- How many runs of the task's `Runnable` are over, by an exception or not. -/
def finished (l : Ledger) (id : TaskId) : Nat := l.log.count (.executed id)

def expired (l : Ledger) (id : TaskId) : Nat := l.log.countP (Event.isExpiry id)

def removed (l : Ledger) (id : TaskId) : Nat := l.log.count (.removed id)

def places (l : Ledger) (id : TaskId) : Nat :=
  l.queued id+l.holders id+l.finished id+l.expired id+l.removed id

inductive Move (l : Ledger) : Ledger → Prop where
  | hire {ids : List ThreadId} (hn : (l.threads ++ ids).Nodup)
      (hnew : ∀ w ∈ ids, l.held w = none) :
      Move l { l with threads := l.threads ++ ids }
  | called {e : Event} (he : e.isCall = true) : Move l { l with log := l.log ++ [e] }
  | expire {gone rest : List Task} (callback : Option CallbackId)
      (htasks : l.tasks = gone ++ rest) :
      Move l { l with
        tasks := rest
        log := l.log ++ gone.map (fun task => .expired task.id callback) }
  | push {task : Task} (hid : task.id = l.nextTask) :
      Move l { l with
        tasks := l.tasks ++ [task]
        nextTask := l.nextTask+1
        log := l.log ++ [.pushed task.id] }
  | take {w : ThreadId} {task task' : Task} {rest : List Task} (hw : l.held w = none)
      (hmem : w ∈ l.threads) (htasks : l.tasks = task :: rest) (hid : task'.id = task.id) :
      Move l { l with tasks := rest, held := Function.update l.held w (some task') }
  | finish {w : ThreadId} {task : Task} (hw : l.held w = some task) (hmem : w ∈ l.threads) :
      Move l { l with
        held := Function.update l.held w none
        log := l.log ++ [.executed task.id] }
  | remove {task : Task} {rest : List Task} (htasks : l.tasks = task :: rest) :
      Move l { l with tasks := rest, log := l.log ++ [.removed task.id] }

/-- Every task pushed so far is in one place, and no other task is anywhere. -/
structure Tallied (l : Ledger) : Prop where
  threads : l.threads.Nodup
  once : ∀ id, l.places id = if id < l.nextTask then 1 else 0

theorem Tallied.places_le {l : Ledger} (hl : l.Tallied) (id : TaskId) : l.places id ≤ 1 := by
  rw [hl.once id]
  split <;> omega

theorem count_tasks (l : Ledger) (id : TaskId) : (l.tasks.map Task.id).count id = l.queued id := by
  rw [List.count_eq_countP,List.countP_map]
  rfl

theorem Tallied.nodup {l : Ledger} (hl : l.Tallied) : (l.tasks.map Task.id).Nodup := by
  rw [List.nodup_iff_count_le_one]
  intro id
  have hplaces := hl.places_le id
  rw [count_tasks]
  unfold places at hplaces
  omega

theorem Tallied.below {l : Ledger} (hl : l.Tallied) : ∀ id ∈ l.tasks.map Task.id,
    id < l.nextTask := by
  intro id hid
  have hpos : 0 < l.queued id := by
    rw [← count_tasks]
    exact List.count_pos_iff.mpr hid
  have hplaces := hl.once id
  split at hplaces
  case isTrue hlt => exact hlt
  case isFalse =>
    unfold places at hplaces
    omega

/-- What a worker's move does to the number of holders. -/
theorem holders_update (l : Ledger) (hn : l.threads.Nodup) {w : ThreadId} (hw : w ∈ l.threads)
    (o : Option Task) (id : TaskId) :
    population (Function.update l.held w o) (fun o => o.any (fun task => task.id = id)) l.threads +
      ((l.held w).any (fun task => task.id = id)).toNat =
    l.holders id+(o.any (fun task => task.id = id)).toNat :=
  population_update l.held _ o hn hw

/-- The events of one expiry, as many for each task as it is there. -/
theorem gone_expired (gone : List Task) (callback : Option CallbackId) (id : TaskId) :
    (gone.map (fun task => Event.expired task.id callback)).countP (Event.isExpiry id) =
      gone.countP (fun task => task.id = id) := by
  rw [List.countP_map]
  rfl

theorem gone_others (gone : List Task) (callback : Option CallbackId) {e : Event}
    (he : ∀ id, e ≠ .expired id callback) :
    (gone.map (fun task => Event.expired task.id callback)).count e = 0 := by
  rw [List.count_eq_zero]
  intro hmem
  obtain ⟨task,-,rfl⟩ := List.mem_map.mp hmem
  exact he _ rfl

theorem places_push (l : Ledger) {task : Task} (hid : task.id = l.nextTask) (id : TaskId) :
    places { l with
      tasks := l.tasks ++ [task]
      nextTask := l.nextTask+1
      log := l.log ++ [.pushed task.id] } id =
    l.places id+if l.nextTask = id then 1 else 0 := by
  simp only [places,queued,holders,finished,expired,removed,List.countP_append,
    List.count_append,hid]
  by_cases he : l.nextTask = id
  · simp [he,hid,Event.isExpiry]
    omega
  · simp [he,hid,Event.isExpiry]

theorem Tallied.move {l m : Ledger} (hl : l.Tallied) (h : l.Move m) : m.Tallied := by
  have hold := fun id => hl.once id
  cases h with
  | @hire ids hn hnew =>
    refine ⟨hn,fun id => ?_⟩
    have hzero : population l.held (fun o => o.any (fun task => task.id = id)) ids = 0 :=
      population_eq_zero.mpr (fun w hw => by rw [hnew w hw]; rfl)
    rw [← hold id]
    simp only [places,queued,holders,finished,expired,removed,population_append,hzero,Nat.add_zero]
  | @called e he =>
    refine ⟨hl.threads,fun id => ?_⟩
    rw [← hold id]
    cases e with
    | returned | threw =>
      simp [places,queued,holders,finished,expired,removed,Event.isExpiry,List.count_append,
        List.countP_append]
    | _ => cases he
  | @expire gone rest callback htasks =>
    refine ⟨hl.threads,fun id => ?_⟩
    rw [← hold id]
    simp only [places,queued,holders,finished,expired,removed,htasks,List.countP_append,
      List.count_append,gone_expired,gone_others gone callback (e := .executed id) (by simp),
      gone_others gone callback (e := .removed id) (by simp)]
    omega
  | @push task hid =>
    refine ⟨hl.threads,fun id => ?_⟩
    rw [l.places_push hid,hold id]
    obtain hlt | rfl | hlt := Nat.lt_trichotomy id l.nextTask
    · simp [hlt,Nat.lt_succ_of_lt hlt,Nat.ne_of_gt hlt]
    · simp
    · simp [Nat.lt_asymm hlt,Nat.not_lt.mpr (Nat.succ_le_of_lt hlt),Nat.ne_of_lt hlt]
  | @take w task task' rest hw hmem htasks hid =>
    refine ⟨hl.threads,fun id => ?_⟩
    have hheld := l.holders_update hl.threads hmem (some task') id
    rw [← hold id]
    simp only [hw,Option.any_some,Option.any_none,Bool.toNat_false,hid] at hheld
    simp only [places,queued,holders,finished,expired,removed,htasks,List.countP_cons] at hheld ⊢
    cases hd : decide (task.id = id) <;> simp [hd] at hheld ⊢ <;> omega
  | @finish w task hw hmem =>
    refine ⟨hl.threads,fun id => ?_⟩
    have hheld := l.holders_update hl.threads hmem none id
    rw [← hold id]
    simp only [hw,Option.any_some,Option.any_none,Bool.toNat_false] at hheld
    simp only [places,queued,holders,finished,expired,removed,List.countP_append,
      List.count_append,List.countP_singleton,List.count_singleton,Event.isExpiry] at hheld ⊢
    by_cases he : task.id = id <;> simp [he] at hheld ⊢ <;> omega
  | @remove task rest htasks =>
    refine ⟨hl.threads,fun id => ?_⟩
    rw [← hold id]
    simp only [places,queued,holders,finished,expired,removed,htasks,List.countP_cons,
      List.countP_append,List.count_append,List.count_singleton,Event.isExpiry]
    by_cases he : task.id = id
    · simp [he]
      omega
    · simp [he]

/-- The pushes on record are those of the tasks there have been. -/
def Recorded (l : Ledger) : Prop := l.log.filterMap Event.pushId = List.range l.nextTask

theorem Recorded.move {l m : Ledger} (hl : l.Recorded) (h : l.Move m) : m.Recorded := by
  have hold : l.log.filterMap Event.pushId = List.range l.nextTask := hl
  cases h with
  | hire | take => exact hl
  | @called e he =>
    have hnone : e.pushId = none := by cases e <;> first | rfl | cases he
    simp [Recorded,hold,hnone]
  | @expire gone rest callback htasks =>
    have hnone : (gone.map (fun task => Event.expired task.id callback)).filterMap
        Event.pushId = [] := by simp [List.filterMap_map,Function.comp_def,Event.pushId]
    simp [Recorded,hold,hnone]
  | push hid => simp [Recorded,hold,hid,Event.pushId,List.range_succ]
  | finish | remove => simp [Recorded,hold,Event.pushId]

abbrev Moves : Ledger → Ledger → Prop := Relation.ReflTransGen Move

theorem Moves.calls (l : Ledger) {es : List Event} (hes : ∀ e ∈ es, e.isCall = true) :
    Moves l { l with log := l.log ++ es } := by
  induction es generalizing l with
  | nil => simpa using Relation.ReflTransGen.refl
  | cons e es ih =>
    obtain ⟨he,hes⟩ := List.forall_mem_cons.mp hes
    have hrest := ih { l with log := l.log ++ [e] } hes
    simp only [List.append_assoc,List.singleton_append] at hrest
    exact .head (.called he) hrest

/-- What every move keeps is kept by a row of them. -/
theorem Moves.keep {P : Ledger → Prop} (hmove : ∀ l m : Ledger, P l → l.Move m → P m)
    {l m : Ledger} (hl : P l) (h : Moves l m) : P m := by
  induction h with
  | refl => exact hl
  | tail _ hlast ih => exact hmove _ _ ih hlast

end Ledger

theorem Core.Step.hired {c d : Core} (h : c.Step d) :
    ∃ ids, d.threads = c.threads ++ ids ∧ ∀ w ∈ ids, c.phase w = .absent := by
  cases h with
  | create hn hnew => exact ⟨_,rfl,hnew⟩
  | _ => exact ⟨[],by simp [Core.move,Core.awake],by simp⟩

namespace ThreadManager

def ledger (s : ThreadManager) : Ledger :=
  ⟨s.tasks,s.nextTask,s.threads,fun w => (s.phase w).task,s.log⟩

theorem hired {s t : ThreadManager} {a : Act} (hs : s.core.Sound) (h : s.step a = some t) :
    ∃ ids, t.threads = s.threads ++ ids ∧ ∀ w ∈ ids, s.phase w = .absent := by
  obtain ⟨-,hcore⟩ | ⟨w,woken,b,-,-,ht⟩ := core_cases hs h
  · exact hcore.hired
  · exact ⟨[],(congrArg Core.threads ht).trans (List.append_nil _).symm,by simp⟩

theorem QueueFrame.moves {s t : ThreadManager} (hf : QueueFrame s t) (ht : t.core.Sound)
    {ids : List ThreadId} (hthreads : t.threads = s.threads ++ ids)
    (hnew : ∀ w ∈ ids, s.phase w = .absent) : Ledger.Moves s.ledger t.ledger := by
  obtain ⟨es,hlog,hes⟩ := hf.log
  have hheld : (fun w => (t.phase w).task) = fun w => (s.phase w).task := by
    funext w
    obtain heq | hop := hf.phase w
    · rw [heq]
    · cases hp : s.phase w with
      | executing task => exact absurd hp (hop.executing task).1
      | _ =>
        cases hq : t.phase w with
        | executing task => exact absurd hq (hop.executing task).2
        | _ => rfl
  have hledger : t.ledger =
      { s.ledger with threads := s.threads ++ ids, log := s.log ++ es } := by
    simp only [ledger,hf.tasks,hf.nextTask,hthreads,hlog,hheld]
  rw [hledger]
  have hfresh : ∀ w ∈ ids, s.ledger.held w = none := fun w hw => by
    simp [ledger,hnew w hw,WorkerPhase.task]
  exact .head (.hire (l := s.ledger) (hthreads ▸ ht.distinct) hfresh) (Ledger.Moves.calls _ hes)

theorem expire_move (s : ThreadManager) (now : Int) :
    s.ledger.Move (s.removeExpiredTasks now).ledger :=
  .expire (l := s.ledger) s.expireCallback List.takeWhile_append_dropWhile.symm

theorem called_move (s : ThreadManager) (u : ThreadId) (p : CallPhase) {e : Event}
    (he : e.isCall = true) : s.ledger.Move ((s.goto u p).record [e]).ledger :=
  .called (l := s.ledger) he

theorem push_moves {s t : ThreadManager} {u : ThreadId} {runnable : RunnableId}
    {expiration created : Int} {woken : Option ThreadId}
    (h : s.push u runnable expiration created woken = some t) :
    Ledger.Moves s.ledger t.ledger := by
  obtain ⟨m,rfl,-⟩ := push_cases h
  have hid : (Task.new s.nextTask runnable expiration created).id = s.ledger.nextTask := rfl
  have hpush := Ledger.Move.push hid
  exact .tail (.single hpush) (.called rfl)

theorem addTest_moves {s t : ThreadManager} {u : ThreadId} {runnable : RunnableId}
    {timeout expiration created : Int} {woken : Option ThreadId}
    (h : s.addTest u runnable timeout expiration created woken = some t) :
    Ledger.Moves s.ledger t.ledger := by
  obtain ⟨-,rfl⟩ | ⟨-,hpush⟩ := addTest_cases h
  · exact .refl
  · exact push_moves (s := { s with maxMonitor := s.maxMonitor.leave u }) hpush

theorem add_moves {s t : ThreadManager} {u : ThreadId} {runnable : RunnableId}
    {timeout expiration now created : Int} {locked : Bool} {woken : Option ThreadId}
    (h : s.add u runnable timeout expiration now created locked woken = some t) :
    Ledger.Moves s.ledger t.ledger := by
  obtain ⟨-,rfl⟩ | ⟨-,-,rfl⟩ | ⟨-,-,-,rfl⟩ | ⟨-,-,h⟩ := add_cases h
  · exact .single (s.called_move u .none rfl)
  · exact .single (s.called_move u .none rfl)
  · exact .head (s.expire_move now) (.single ((s.removeExpiredTasks now).called_move u .none rfl))
  · exact .head (s.expire_move now) (addTest_moves h)

theorem removeNextPending_moves (s : ThreadManager) (u : ThreadId) :
    Ledger.Moves s.ledger (s.removeNextPending u).ledger := by
  obtain ⟨-,heq⟩ | ⟨-,heq⟩ | ⟨task,rest,htasks,heq⟩ := s.removeNextPending_cases u <;> rw [heq]
  · exact .single (s.called_move u .none rfl)
  · exact .single (s.called_move u .none rfl)
  · exact .head (.remove (l := s.ledger) htasks) (.single (.called rfl))

theorem task_of_atLoop {p : WorkerPhase} (h : p.atLoop = true) : p.task = none := by
  cases p <;> first | rfl | cases h

theorem ledger_move {s : ThreadManager} {w : ThreadId} {p : WorkerPhase}
    (hold : (s.phase w).task = none) (hnew : p.task = none) : (s.move w p).ledger = s.ledger := by
  have hheld : (fun v => (Function.update s.phase w p v).task) = fun v => (s.phase v).task := by
    funext v
    obtain rfl | he := eq_or_ne v w
    · rw [Function.update_self,hold,hnew]
    · rw [Function.update_of_ne he]
  simp only [ledger,move,hheld]

theorem ledger_hold (s : ThreadManager) (w : ThreadId) (p : WorkerPhase) :
    (s.move w p).ledger =
      { s.ledger with held := Function.update s.ledger.held w p.task } := by
  have hheld : (fun v => (Function.update s.phase w p v).task) =
      Function.update (fun v => (s.phase v).task) w p.task := by
    funext v
    obtain rfl | he := eq_or_ne v w
    · simp
    · simp [Function.update_of_ne he]
  simp only [ledger,move,hheld]

theorem take_moves {s t : ThreadManager} {w : ThreadId} {now : Int} {woken : Option ThreadId}
    (hs : s.core.Sound) (h : s.take w now woken = some t) : Ledger.Moves s.ledger t.ledger := by
  obtain ⟨hloop,hcases⟩ := take_cases h
  have hold : (s.phase w).task = none := task_of_atLoop hloop
  have hmem : w ∈ s.threads := hs.mem_of_atLoop hloop
  obtain ⟨-,rfl⟩ | ⟨-,-,rfl⟩ | ⟨-,-,htask⟩ := hcases
  · exact (ledger_move (s := s) (p := .leaving true) hold rfl).symm ▸ .refl
  · exact (ledger_move (s := s) (p := .waiting) hold rfl).symm ▸ .refl
  · have hexpire : s.ledger.Move ((s.awake w).removeExpiredTasks now).ledger :=
      (s.awake w).expire_move now
    obtain ⟨u,m,rfl,⟨-,rfl⟩ | ⟨task,rest,htasks,rfl⟩,-⟩ := takeTask_cases htask
    · refine .single ?_
      have := ledger_move (s := (s.awake w).removeExpiredTasks now) (p := .looping) hold rfl
      exact this.symm ▸ hexpire
    · refine .tail (.single hexpire) ?_
      change Ledger.Move _ ({ (s.awake w).removeExpiredTasks now with tasks := rest }.move w
        (.executing task.take)).ledger
      rw [ledger_hold]
      exact .take (l := ((s.awake w).removeExpiredTasks now).ledger) hold hmem htasks
        (Task.take_id task)

theorem finish_move {s : ThreadManager} (hs : s.core.Sound) (hk : s.TasksKept) {w : ThreadId}
    {task : Task} (hw : s.phase w = .executing task) : s.ledger.Move (s.finish w task).ledger := by
  have hstate := hk.executing w task hw
  have hmem : w ∈ s.threads := hs.mem_of_phase hw (by simp)
  have hheld : s.ledger.held w = some task := congrArg WorkerPhase.task hw
  have hledger : (s.finish w task).ledger =
      { (s.move w .looping).ledger with log := s.log ++ [.executed task.id] } := by
    simp [ledger,finish,record,move,hstate]
  rw [hledger,ledger_hold]
  exact .finish hheld hmem

/-- Whatever the manager does to its tasks is a row of moves. -/
theorem ledger_step {s t : ThreadManager} {a : Act} (hs : s.core.Sound) (hk : s.TasksKept)
    (h : s.step a = some t) : Ledger.Moves s.ledger t.ledger := by
  by_cases hqueue : a.onQueue = false
  · obtain ⟨ids,hthreads,hnew⟩ := hired hs h
    exact (queue_frame hqueue h).moves (sound_inductive.step s a t hs h) hthreads hnew
  cases step_to h with
  | add _ hadd => exact add_moves hadd
  | addResume _ htest => exact addTest_moves htest
  | @addTimeout u => exact .single (called_move s u .none rfl)
  | removeNextPending => exact removeNextPending_moves s _
  | removeExpiredTasks now => exact .single (s.expire_move now)
  | setPendingTaskCountMax => exact .refl
  | take htake => exact take_moves hs htake
  | finish hw => exact .single (finish_move hs hk hw)
  | _ => exact absurd rfl hqueue

end ThreadManager
end MprMq.Threading
