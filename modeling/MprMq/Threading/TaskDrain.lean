import MprMq.Threading.StopOrder
import MprMq.Threading.TaskPlaces
set_option autoImplicit false

/-! What a `Join` leaves of the tasks. -/

namespace MprMq.Threading
open MprMq.Lib

namespace ThreadManager

/-- Behind `STARTED` an empty queue stays empty, but for an `Add` that has waited. -/
theorem tasks_stay_empty {s t : ThreadManager} {a : Act} (h : s.step a = some t)
    (hclosed : s.state ≠ .started)
    (hresume : ∀ u created woken, a = .addResume u created woken → s.full = true)
    (hnil : s.tasks = []) : t.tasks = [] := by
  by_cases hqueue : a.onQueue = false
  · exact (queue_frame hqueue h).tasks.trans hnil
  cases step_to h with
  | add _ hadd =>
    obtain ⟨-,rfl⟩ | ⟨-,-,rfl⟩ | ⟨-,hstate,-⟩ | ⟨-,hstate,-⟩ := add_cases hadd
    · exact hnil
    · exact hnil
    · exact absurd hstate hclosed
    · exact absurd hstate hclosed
  | addResume _ htest =>
    obtain ⟨-,rfl⟩ | ⟨hroom,-⟩ := addTest_cases htest
    · exact hnil
    · rw [hresume _ _ _ rfl] at hroom
      cases hroom
  | addTimeout | setPendingTaskCountMax | finish => exact hnil
  | removeNextPending =>
    unfold removeNextPending
    rw [if_pos hclosed]
    exact hnil
  | removeExpiredTasks => simp [removeExpiredTasks,hnil]
  | take htake =>
    obtain ⟨-,⟨-,rfl⟩ | ⟨-,-,rfl⟩ | ⟨-,hne,-⟩⟩ := take_cases htake
    · exact hnil
    · exact hnil
    · exact absurd hnil hne
  | _ => exact absurd rfl hqueue

/-- As long as there are tasks to join for, a worker in its loop stays there. -/
theorem stays_joining {s t : ThreadManager} {a : Act} (h : s.step a = some t)
    (hstate : s.state = .joining) (htasks : s.tasks ≠ []) {w : ThreadId}
    (hw : (s.phase w).staying = true) : (t.phase w).staying = true := by
  obtain hstay | ⟨hno,-⟩ := stays h hw
  · exact hstay
  · simp [isActive,hstate,htasks] at hno

/-- The sections of a stop before its last one, while the manager is not open. -/
theorem OneStopper.stop_frame {s t : ThreadManager} {a : Act} (hs : s.OneStopper)
    (hclosed : s.state = .joining ∨ s.state = .stopped) (hstop : a.onStop = true)
    (ha : a.resizes = false) (hlast : ∀ u, a ≠ .stopLast u) (h : s.step a = some t) :
    t.state = s.state ∧ t.log = s.log ∧ ∀ u, (t.call u).claimed = (s.call u).claimed := by
  have hgoto : ∀ {u : ThreadId} {p : CallPhase}, p.claimed = (s.call u).claimed →
      ∀ v, (Function.update s.call u p v).claimed = (s.call v).claimed := by
    intro u p hp
    rw [Function.forall_update_iff s.call (fun v q => q.claimed = (s.call v).claimed)]
    exact ⟨hp,fun _ _ => rfl⟩
  cases step_to h with
  | removeWorker => cases ha
  | stopLast => exact absurd rfl (hlast _)
  | @removeWorkerTest u stop hu =>
    have hfact := hs.fact u
    rw [hu] at hfact
    cases stop with
    | none => exact hfact.elim
    | some join =>
      unfold ThreadManager.removeWorkerTest
      split
      · exact ⟨rfl,rfl,fun _ => rfl⟩
      · exact ⟨rfl,rfl,hgoto (by rw [hu]; rfl)⟩
  | stopSection hu =>
    unfold ThreadManager.stopSection
    rw [if_neg (by obtain hstate | hstate := hclosed <;> simp [hstate])]
    exact ⟨rfl,rfl,hgoto (by rw [hu]; rfl)⟩
  | stopRead hu => exact ⟨rfl,rfl,hgoto (by rw [hu]; rfl)⟩
  | stopRemove hu hremove =>
    obtain ⟨m,rfl,-⟩ := hs.stopRemove hu hremove
    exact ⟨rfl,rfl,hgoto (by rw [hu]; rfl)⟩
  | _ => cases hstop

/-- Every step but the last section of `StopImpl`, while the manager is not open. -/
theorem OneStopper.closed_frame {s t : ThreadManager} {a : Act} (hs : s.OneStopper)
    (hclosed : s.state = .joining ∨ s.state = .stopped) (ha : a.resizes = false)
    (hlast : ∀ u, a ≠ .stopLast u) (h : s.step a = some t) :
    t.state = s.state ∧ (∀ u, (t.call u).claimed = (s.call u).claimed) ∧
      ∀ u, (s.call u).claimed = true → .returned u .join ∈ t.log →
        .returned u .join ∈ s.log := by
  by_cases hstop : a.onStop = false
  · have hf := control_frame hstop h
    refine ⟨?_,fun u => Bool.eq_iff_iff.mpr (hf.claimed_iff u),fun u hu hret => ?_⟩
    · obtain hstate | ⟨hstate,-⟩ := hf.state
      · exact hstate
      · rw [hstate] at hclosed
        simp at hclosed
    · obtain ⟨es,hlog,hes⟩ := hf.log
      rw [hlog] at hret
      obtain hret | hret := List.mem_append.mp hret
      · exact hret
      · have := (hes _ hret).2.2 u rfl
        rw [CallPhase.engaged_of_claimed hu] at this
        cases this
  · obtain ⟨hstate,hlog,hcall⟩ := hs.stop_frame hclosed (by simpa using hstop) ha hlast h
    exact ⟨hstate,hcall,fun u _ hret => hlog ▸ hret⟩

end ThreadManager

/-- Nothing is left of the tasks when the `Join` of `u` has returned. -/
structure JoinDrained (u : ThreadId) (s : ThreadManager) : Prop where
  tasks : .returned u .join ∈ s.log → s.tasks = []
  done : .returned u .join ∈ s.log → ∀ id < s.nextTask, s.Done id

/-- Another caller of `StopImpl` does not set the state while there are tasks to join for,
and an `Add` that has waited finds room only while a worker is there for its task. -/
def drains (s : ThreadManager) : Act → Bool
  | .stopLast u =>
    match s.call u with
    | .stopLast _ false => s.state ≠ .joining || s.tasks.isEmpty
    | _ => true
  | .addResume _ _ _ => s.full || (s.state = .joining && 0 < s.core.staying)
  | _ => true

structure Draining (u : ThreadId) (s : ThreadManager) : Prop where
  stopper : s.OneStopper
  kept : s.TasksKept
  closed : s.state = .joining ∨ s.state = .stopped
  staffed : s.state = .joining → s.tasks ≠ [] → ∃ w, (s.phase w).staying = true
  drained : s.state = .stopped → s.tasks = []
  caller : (s.call u).claimed = true ∨ (s.state = .stopped ∧ s.workerCount = 0)
  first : (s.call u).claimed = true → .returned u .join ∉ s.log

theorem Draining.joinDrained {u : ThreadId} {s : ThreadManager} (hs : Draining u s) :
    JoinDrained u s := by
  have hover : .returned u .join ∈ s.log → s.state = .stopped ∧ s.workerCount = 0 :=
    fun h => hs.caller.resolve_left (fun hu => hs.first hu h)
  refine ⟨fun h => hs.drained (hover h).1,fun h id hid => ?_⟩
  obtain ⟨hstate,hcount⟩ := hover h
  obtain ⟨task,htask,-⟩ | ⟨w,task,hw,-⟩ | hdone := hs.kept.accounted id hid
  · rw [hs.drained hstate] at htask
    cases htask
  · have : (s.phase w).registered = false := hs.stopper.crewed.none_registered hcount w
    rw [hw] at this
    cases this
  · exact hdone

/-- Where an `Add` that has waited finds room a worker is there. -/
theorem resume_staffed {s : ThreadManager} {a : Act} (hc : drains s a = true)
    (hroom : ¬ ∀ u created woken, a = .addResume u created woken → s.full = true) :
    s.state = .joining ∧ (∃ w, (s.phase w).staying = true) ∧
      ∃ u created woken, a = .addResume u created woken := by
  simp only [not_forall] at hroom
  obtain ⟨u,created,woken,rfl,hfull⟩ := hroom
  simp only [drains,hfull,Bool.false_or,Bool.and_eq_true,decide_eq_true_eq] at hc
  obtain ⟨w,-,hw⟩ := population_pos.mp hc.2
  exact ⟨hc.1,⟨w,hw⟩,u,created,woken,rfl⟩

theorem Draining.other {u : ThreadId} {s t : ThreadManager} {a : Act} (hs : Draining u s)
    (ha : a.resizes = false) (hlast : ∀ v, a ≠ .stopLast v) (hc : drains s a = true)
    (h : s.step a = some t) : Draining u t := by
  obtain ⟨hstate,hcall,hlog⟩ := hs.stopper.closed_frame hs.closed ha hlast h
  have hclosed : s.state ≠ .started := by
    obtain hst | hst := hs.closed <;> rw [hst] <;> simp
  refine ⟨hs.stopper.step ha h,hs.kept.step h,hstate ▸ hs.closed,fun hjoin hne => ?_,
    fun hstopped => ?_,?_,fun hu hret => ?_⟩
  · have hjoin' : s.state = .joining := hstate ▸ hjoin
    by_cases hnil : s.tasks = []
    · by_cases hresume : ∀ u created woken, a = .addResume u created woken → s.full = true
      · exact absurd (ThreadManager.tasks_stay_empty h hclosed hresume hnil) hne
      · obtain ⟨-,⟨w,hw⟩,v,created,woken,rfl⟩ := resume_staffed hc hresume
        obtain hstay | ⟨-,now,woken',hact⟩ := ThreadManager.stays h hw
        · exact ⟨w,hstay⟩
        · cases hact
    · obtain ⟨w,hw⟩ := hs.staffed hjoin' hnil
      exact ⟨w,ThreadManager.stays_joining h hjoin' hnil hw⟩
  · have hstopped' : s.state = .stopped := hstate ▸ hstopped
    refine ThreadManager.tasks_stay_empty h hclosed ?_ (hs.drained hstopped')
    by_contra hroom
    have := (resume_staffed hc hroom).1
    rw [hstopped'] at this
    cases this
  · rw [hcall u,hstate]
    exact hs.caller.imp_right (fun hover =>
      ⟨hover.1,ThreadManager.count_stays_zero hs.stopper.crewed h hover.2⟩)
  · rw [hcall u] at hu
    exact hs.first hu (hlog u hu hret)

/-- The state is set with nothing left in the queue. -/
theorem Draining.last {u v : ThreadId} {s t : ThreadManager} (hs : Draining u s)
    (hc : drains s (.stopLast v) = true) (h : s.step (.stopLast v) = some t) :
    Draining u t := by
  have hstopper := hs.stopper.step (a := .stopLast v) rfl h
  have hkept := hs.kept.step h
  cases ThreadManager.step_to h with
  | @stopLast _ join doStop hv =>
    have hfact := hs.stopper.fact v
    rw [hv] at hfact
    have hnil : s.tasks = [] := by
      obtain hjoin | hstopped := hs.closed
      case inr => exact hs.drained hstopped
      cases doStop with
      | true =>
        by_contra hne
        obtain ⟨w,hw⟩ := hs.staffed hjoin hne
        have : (s.phase w).registered = false := hs.stopper.crewed.none_registered hfact w
        rw [WorkerPhase.registered_of_staying hw] at this
        cases this
      | false => simpa [drains,hv,hjoin] using hc
    refine ⟨hstopper,hkept,.inr rfl,fun hjoin => ?_,fun _ => hnil,?_,fun hu hret => ?_⟩
    · cases hjoin
    · by_cases hclaimed : (s.call u).claimed = true
      · by_cases he : u = v
        · subst he
          rw [hv] at hclaimed
          cases doStop with
          | false => cases hclaimed
          | true => exact .inr ⟨rfl,hfact⟩
        · refine .inl ?_
          simp only [ThreadManager.stopLast,ThreadManager.ret,ThreadManager.goto,
            ThreadManager.record,Function.update_of_ne he]
          exact hclaimed
      · exact .inr ⟨rfl,(hs.caller.resolve_left hclaimed).2⟩
    · have hne : u ≠ v := by
        rintro rfl
        simp [ThreadManager.stopLast,ThreadManager.ret,ThreadManager.goto,ThreadManager.record,
          CallPhase.claimed] at hu
      simp only [ThreadManager.stopLast,ThreadManager.ret,ThreadManager.goto,
        ThreadManager.record,Function.update_of_ne hne] at hu
      obtain hret | hret := List.mem_append.mp hret
      · exact hs.first hu hret
      · have := List.mem_singleton.mp hret
        injection this with heq
        exact hne heq

theorem Draining.step {u : ThreadId} {s t : ThreadManager} {a : Act} (hs : Draining u s)
    (ha : a.resizes = false) (hc : drains s a = true) (h : s.step a = some t) :
    Draining u t := by
  by_cases hlast : ∃ v, a = .stopLast v
  · obtain ⟨v,rfl⟩ := hlast
    exact hs.last hc h
  · exact hs.other ha (fun v he => hlast ⟨v,he⟩) hc h

/-- The `Join` that takes on the stop of a started manager with a worker. -/
theorem Draining.begin {u : ThreadId} {s t : ThreadManager} (hg : s.Grown) (hkept : s.TasksKept)
    (hall : ∀ w ∈ s.threads, (s.phase w).staying = true) (hone : 0 < s.workerCount)
    (hstarted : s.state = .started) (hcall : s.call u = .stopping true)
    (h : s.step (.stopSection u) = some t) : Draining u t := by
  have hstopper := (hg.oneStopper hall).step (a := .stopSection u) rfl h
  have hkept' := hkept.step h
  simp only [ThreadManager.step,hcall] at h
  obtain rfl := Option.some.inj h
  have hsection : s.stopSection u true =
      { s with state := .joining }.goto u (.stopReading true) := by
    unfold ThreadManager.stopSection
    rw [if_pos (by simp [hstarted])]
    rfl
  rw [hsection] at hstopper hkept' ⊢
  refine ⟨hstopper,hkept',.inl rfl,fun _ _ => ?_,fun hstopped => ?_,.inl ?_,fun _ hret => ?_⟩
  · have hcount : 0 < s.core.registered := hg.core.accurate ▸ hone
    obtain ⟨w,hw,-⟩ := population_pos.mp hcount
    exact ⟨w,hall w hw⟩
  · cases hstopped
  · simp [ThreadManager.goto,CallPhase.claimed]
  · cases hg.log _ hret

/-- The first `Join` on a started manager with a registered worker, with any calls of
`Add`, `RemoveNextPending`, `Stop` and `Join` beside it: when it has returned the queue is
empty and every task that was pushed was executed, has expired or was taken out. -/
theorem join_drains {pre post : List Act} {s : ThreadManager} {u : ThreadId}
    (hpre : ∀ a ∈ pre, a.onStop = false) (hrun : ThreadManager.system.run pre = some s)
    (hall : ∀ w ∈ s.threads, (s.phase w).staying = true) (hone : 0 < s.workerCount)
    (hstarted : s.state = .started) (hcall : s.call u = .stopping true)
    (hpost : ∀ a ∈ post, a.resizes = false)
    (hc : ThreadManager.system.AlongFrom (fun s a _ => drains s a) s (.stopSection u :: post)) :
    ThreadManager.system.AlongFrom (fun _ _ t => JoinDrained u t) s
      (.stopSection u :: post) := by
  have hgrown := ThreadManager.grown_of_run hpre hrun
  have hkept := ThreadManager.tasksKept_inductive.run hrun
  intro t h
  have hbegin := Draining.begin hgrown hkept hall hone hstarted hcall h
  refine ⟨hbegin.joinDrained,?_⟩
  have hlabelled := System.AlongFrom.labelled hpost (hc t h).2
  refine hlabelled.guarded (I := Draining u) (fun s a t hs h hca => ?_) hbegin
  have ht := hs.step hca.1 hca.2 h
  exact ⟨ht,ht.joinDrained⟩

/-- One worker with a task, another task in the queue, a `Join` and a `Stop` that have
found the manager not stopped. -/
def joinAndStop : List Act :=
  oneWorker ++ [.add 2 5 0 0 0 0 true none,.take 1 0 none,.add 2 6 0 0 0 0 true none,
    .stop 3 true,.stop 4 false]

theorem lone_join_drains : ThreadManager.system.AlongFrom (fun _ _ t => JoinDrained 3 t)
    ((ThreadManager.system.run joinAndStop).getD .init)
    [.stopSection 3,.stopRead 3,.stopRemove 3 [],.finish 1,.take 1 0 none,.finish 1,
      .take 1 0 none,.exit 1 none,.removeWorkerTest 3,.stopLast 3] :=
  join_drains (show ∀ a ∈ joinAndStop, a.onStop = false by decide) rfl (by decide) (by decide)
    rfl rfl (by decide) (System.alongFrom_of_check drains (by decide))

/-- The `Stop` sets the state while the worker executes, and the worker leaves after it. -/
def stopCutsJoin : List Act :=
  [.stopSection 3,.stopSection 4,.stopLast 4,.stopRead 3,.stopRemove 3 [],.finish 1,
    .take 1 0 none,.exit 1 none,.removeWorkerTest 3]

theorem stop_cuts_join_short :
    ¬ ∀ pre post s u, (∀ a ∈ pre, a.onStop = false) →
      ThreadManager.system.run pre = some s →
      (∀ w ∈ s.threads, (s.phase w).staying = true) → 0 < s.workerCount →
      s.state = .started → s.call u = .stopping true → (∀ a ∈ post, a.resizes = false) →
      ThreadManager.system.AlongFrom (fun _ _ t => JoinDrained u t) s
        (.stopSection u :: post) := by
  intro h
  have hdrained := System.AlongFrom.after stopCutsJoin
    (h joinAndStop (stopCutsJoin.tail ++ [.stopLast 3]) _ 3 (by decide) rfl (by decide)
      (by decide) rfl rfl (by decide)) rfl rfl
  exact absurd (hdrained.tasks (by decide)) (by decide)

end MprMq.Threading
