import MprMq.Threading.TaskOrder
set_option autoImplicit false

/-! Tasks that expire: no worker gets one, and each is told to the callback and counted. -/

namespace MprMq.Threading
open MprMq.Lib

namespace ThreadManager

/-- The tasks that have left the queue without a worker or a caller of `RemoveNextPending`
getting them. -/
def lost (s : ThreadManager) (a : Act) (t : ThreadManager) : List TaskId :=
  match a with
  | .removeNextPending _ => []
  | .take w _ _ => (s.leaves t).filter (fun id => (t.phase w).task.map Task.id ≠ some id)
  | _ => s.leaves t

/-- What has come out of `ExpiredTaskCount` in all, and the tasks lost, with the callback
that was set when each was. -/
structure ExpiryRecord where
  reported : Nat
  dropped : List (TaskId × Option CallbackId)

def expiryRecord (r : ExpiryRecord) (s : ThreadManager) (a : Act) (t : ThreadManager) :
    ExpiryRecord :=
  ⟨r.reported+if a = .expiredTaskCount then s.expiredCount else 0,
    r.dropped ++ (s.lost a t).map (fun id => (id,s.expireCallback))⟩

/-- The calls of the callback are one for each task lost, and so are the counts. -/
structure ExpiredOnce (s : ThreadManager) (r : ExpiryRecord) : Prop where
  passed : s.expiries = r.dropped
  once : (r.dropped.map Prod.fst).Nodup
  counted : r.reported+s.expiredCount = r.dropped.length

/-- What a worker or a caller gets has not expired, so what is lost has. -/
theorem QueueStep.lost {s t : ThreadManager} {a : Act} {gone taken kept new : List Task}
    (hq : QueueStep s a t gone taken kept new) (hs : s.ledger.Tallied) :
    s.lost a t = gone.map Task.id := by
  have hleaves := hq.leaves hs
  cases hq.handed with
  | removal => rfl
  | @worker w now woken _ task hw htask =>
    have hnodup := hs.nodup
    have htasks : s.ledger.tasks = gone ++ ([task] ++ kept) := hq.before
    rw [htasks,List.map_append] at hnodup
    have hapart := (List.nodup_append.mp hnodup).2.2
    have hother : ∀ id ∈ gone.map Task.id, some task.take.id ≠ some id := by
      intro id hid heq
      rw [Task.take_id] at heq
      exact hapart id hid task.id (by simp) (Option.some.inj heq).symm
    simp only [ThreadManager.lost,hleaves,hw,WorkerPhase.task,Option.map_some,List.map_cons,
      List.map_nil,List.filter_append]
    rw [List.filter_eq_self.mpr (fun id hid => decide_eq_true (hother id hid))]
    simp [Task.take_id]
  | nothing now woken _ hw => simp [ThreadManager.lost,hleaves,hw]
  | @other a _ ha =>
    rw [List.map_nil,List.append_nil] at hleaves
    rw [← hleaves]
    cases a <;> first | rfl | cases ha

structure ExpiryKept (s : ThreadManager) (r : ExpiryRecord) : Prop where
  sound : s.core.Sound
  kept : s.TasksKept
  tallied : s.ledger.Tallied
  passed : s.expiries = r.dropped
  counted : r.reported+s.expiredCount = r.dropped.length

theorem count_expiries (l : Ledger) (id : TaskId) :
    ((l.log.filterMap Event.expiry).map Prod.fst).count id = l.expired id := by
  rw [List.count_eq_countP,List.countP_map,List.countP_filterMap]
  refine congrArg (fun p => l.log.countP p) (funext (fun e => ?_))
  cases e <;> rfl

theorem ExpiryKept.once {s : ThreadManager} {r : ExpiryRecord} (hs : s.ExpiryKept r) :
    s.ExpiredOnce r where
  passed := hs.passed
  once := by
    rw [List.nodup_iff_count_le_one]
    intro id
    have hplaces := hs.tallied.places_le id
    have hcount := count_expiries s.ledger id
    rw [← hs.passed]
    change ((s.ledger.log.filterMap Event.expiry).map Prod.fst).count id ≤ 1
    unfold Ledger.places at hplaces
    omega
  counted := hs.counted

theorem ExpiryKept.step {s t : ThreadManager} {a : Act} {r : ExpiryRecord} (hs : s.ExpiryKept r)
    (h : s.step a = some t) : t.ExpiryKept (expiryRecord r s a t) := by
  obtain ⟨gone,taken,kept,new,hq⟩ := queue_step h
  have hlost := hq.lost hs.tallied
  refine ⟨sound_inductive.step s a t hs.sound h,hs.kept.step h,
    Ledger.Moves.keep (fun _ _ hl hm => hl.move hm) hs.tallied (ledger_step hs.sound hs.kept h),
    ?_,?_⟩
  · rw [hq.expiries,hs.passed,expiryRecord,hlost,List.map_map]
    rfl
  · have hcounted := hs.counted
    simp only [expiryRecord,hq.counted,hlost,Act.uncounted,List.length_append,List.length_map]
    split <;> omega

theorem expiryKept_inductive :
    (system.watch ⟨0,[]⟩ expiryRecord).Inductive (fun p => p.1.ExpiryKept p.2) where
  init := ⟨sound_inductive.init,tasksKept_inductive.init,⟨List.nodup_nil,fun _ => rfl⟩,rfl,rfl⟩
  step := fun s a t hs h => by
    obtain ⟨hstep,hrecord⟩ := System.watch_step h
    rw [hrecord]
    exact hs.step hstep

theorem take_phase {s t : ThreadManager} {w : ThreadId} {now : Int} {woken : Option ThreadId}
    (h : s.take w now woken = some t) : ∃ p, t.phase = Function.update s.phase w p := by
  obtain ⟨-,⟨-,rfl⟩ | ⟨-,-,rfl⟩ | ⟨-,-,htask⟩⟩ := take_cases h
  · exact ⟨_,rfl⟩
  · exact ⟨_,rfl⟩
  · obtain ⟨u,m,rfl,⟨-,rfl⟩ | ⟨task,rest,-,rfl⟩,-⟩ := takeTask_cases htask <;> exact ⟨_,rfl⟩

/-- A worker has its task from a section in which the task had not expired. -/
theorem begins {s t : ThreadManager} {a : Act} (h : s.step a = some t) {w : ThreadId} {task : Task}
    (hw : t.phase w = .executing task) : s.phase w = .executing task ∨
      ∃ now woken, a = .take w now woken ∧ task.expired now = false := by
  by_cases hqueue : a.onQueue = false
  · obtain heq | hop := (queue_frame hqueue h).phase w
    · exact .inl (heq ▸ hw)
    · exact absurd hw (hop.executing task).2
  cases step_to h with
  | removeExpiredTasks | setPendingTaskCountMax | addTimeout => exact .inl hw
  | add _ hadd => exact .inl (add_phase hadd ▸ hw)
  | addResume _ htest => exact .inl (addTest_phase htest ▸ hw)
  | removeNextPending => exact .inl (removeNextPending_phase s _ ▸ hw)
  | finish =>
    obtain ⟨-,hp⟩ | ⟨-,hp⟩ := update_cases hw
    · cases hp
    · exact .inl hp
  | @take v now woken _ htake =>
    obtain ⟨p,hphase⟩ := take_phase htake
    rw [hphase] at hw
    obtain ⟨rfl,hp⟩ | ⟨-,hp⟩ := update_cases hw
    · subst hp
      have hself : t.phase w = .executing task := by rw [hphase,Function.update_self]
      obtain ⟨gone,taken,kept,new,hq⟩ := take_queue htake
      cases hq.handed with
      | @worker _ _ _ _ task' hw' htask =>
        obtain rfl := WorkerPhase.executing.inj (hw'.symm.trans hself)
        exact .inr ⟨now,woken,rfl,(Task.take_expired task' now).trans htask⟩
      | nothing _ _ _ hw' =>
        rw [hself] at hw'
        cases hw'
      | other _ ha => cases ha
    · exact .inl hp
  | _ => exact absurd rfl hqueue

end ThreadManager

/-- In every run no worker executes what has expired by the clock of the section in which
it took the task, and what is lost from the queue is told and counted once. -/
theorem expired_tasks_dropped (as : List Act) :
    ThreadManager.system.Along (fun s a t => ∀ w task, t.phase w = .executing task →
      s.phase w = .executing task ∨ ∃ now woken, a = .take w now woken ∧
        (task.expireTime = 0 ∨ now < task.expireTime)) as ∧
    (ThreadManager.system.watch ⟨0,[]⟩ ThreadManager.expiryRecord).Always
      (fun p => p.1.ExpiredOnce p.2) as := by
  refine ⟨ThreadManager.sound_inductive.along ?_ as,
    ThreadManager.expiryKept_inductive.always (fun _ hs => hs.once) as⟩
  intro s a t _ h w task hw
  obtain hold | ⟨now,woken,ha,htask⟩ := ThreadManager.begins h hw
  · exact .inl hold
  · refine .inr ⟨now,woken,ha,?_⟩
    simpa [Task.expired,or_iff_not_imp_left] using htask

end MprMq.Threading
