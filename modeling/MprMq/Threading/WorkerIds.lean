import MprMq.Threading.CallSteps
import MprMq.Threading.ControlFrame
set_option autoImplicit false

/-! `id_map_`, by which `Add` knows a worker's thread, and the threads that `AddWorker` has
started and not entered into it yet. -/

namespace MprMq.Threading
open MprMq.Lib

def CallPhase.unrecorded : CallPhase → List ThreadId
  | .starting ids => ids
  | .mapping w rest => w :: rest
  | _ => []

def Act.onIds : Act → Bool
  | .addWorker .. | .mapThread .. | .removeWorkerTest .. => true
  | _ => false

theorem CallStep.unrecorded {a : Act} {u : ThreadId} {p q : CallPhase} (h : CallStep a u p q)
    (ha : a.onIds = false) : q.unrecorded = p.unrecorded := by
  cases h with
  | addWorker | mapThread | removing | removed | stopRemoved => cases ha
  | grow hp | grown hp => obtain rfl | rfl := hp <;> rfl
  | _ => rfl

theorem CallStep.inAdd {a : Act} {u : ThreadId} {p q : CallPhase} (h : CallStep a u p q)
    (hq : q.inAdd = true) : p.inAdd = true ∨
      ∃ runnable timeout expiration now created locked woken,
        a = .add u runnable timeout expiration now created locked woken := by
  cases h with
  | addWait => exact .inr ⟨_,_,_,_,_,_,_,rfl⟩
  | addWaitOn => exact .inl rfl
  | _ => cases hq

theorem Core.Step.finished {c d : Core} (h : c.Step d) {w : ThreadId}
    (hw : c.phase w = .finished) : d.phase w = .finished := by
  have hmove : ∀ {v : ThreadId} {p : WorkerPhase}, c.phase v ≠ .finished →
      Function.update c.phase v p w = .finished := by
    intro v p hv
    have hne : w ≠ v := fun he => hv (he ▸ hw)
    rw [Function.update_of_ne hne,hw]
  have hloop : ∀ {v : ThreadId}, (c.phase v).atLoop = true → c.phase v ≠ .finished := by
    intro v hv he
    rw [he] at hv
    cases hv
  cases h with
  | signal | lower => exact hw
  | @create ids _ hnew =>
    have hout : w ∉ ids := fun hmem => by
      rw [hnew w hmem] at hw
      cases hw
    exact (if_neg hout).trans hw
  | begin hv => exact hmove (by simp [hv])
  | register hv => exact hmove (by simp [hv])
  | late hv => exact hmove (by simp [hv])
  | told hv => exact hmove (by simp [hv])
  | park hv => exact hmove (hloop hv)
  | go hv => exact hmove (hloop hv)
  | quit hv => exact hmove (hloop hv)
  | finish hv => exact hmove (by simp [hv])

namespace ThreadManager

theorem finished_stays {s t : ThreadManager} {a : Act} (hs : s.core.Sound)
    (h : s.step a = some t) {w : ThreadId} (hw : s.phase w = .finished) :
    t.phase w = .finished := by
  refine step_keeps (P := fun c => c.phase w = .finished) (fun _ _ _ hp hd => hd.finished hp)
    (fun c v b _ hp hv => ?_) hs hw h
  by_cases he : w = v
  · exact he ▸ Function.update_self ..
  · exact (Function.update_of_ne he _ _).trans hp

structure IdFrame (s t : ThreadManager) : Prop where
  threads : t.threads = s.threads
  ids : t.idMap = s.idMap
  dead : ∀ w ∈ t.deadWorkers, w ∈ s.deadWorkers ∨ t.phase w = .finished

theorem IdFrame.of_eq {s t : ThreadManager} (hthreads : t.threads = s.threads)
    (hids : t.idMap = s.idMap) (hdead : t.deadWorkers = s.deadWorkers) : IdFrame s t :=
  ⟨hthreads,hids,fun _ hw => .inl (hdead ▸ hw)⟩

theorem removeWorker_ids {s t : ThreadManager} {u : ThreadId} {value : Nat}
    {stop : Option Bool} {woken : List (Option ThreadId)}
    (h : s.removeWorker u value stop woken = some t) : IdFrame s t := by
  obtain ⟨-,rfl⟩ | ⟨-,m,-,rfl⟩ := removeWorker_cases h
  · exact .of_eq rfl rfl rfl
  · exact .of_eq rfl rfl rfl

theorem addTest_ids {s t : ThreadManager} {u : ThreadId} {runnable : RunnableId}
    {timeout expiration created : Int} {woken : Option ThreadId}
    (h : s.addTest u runnable timeout expiration created woken = some t) : IdFrame s t := by
  obtain ⟨-,rfl⟩ | ⟨-,hpush⟩ := addTest_cases h
  · exact .of_eq rfl rfl rfl
  · obtain ⟨m,rfl,-⟩ := push_cases hpush
    exact .of_eq rfl rfl rfl

theorem take_ids {s t : ThreadManager} {w : ThreadId} {now : Int} {woken : Option ThreadId}
    (h : s.take w now woken = some t) : IdFrame s t := by
  obtain ⟨-,⟨-,rfl⟩ | ⟨-,-,rfl⟩ | ⟨-,-,htask⟩⟩ := take_cases h
  · exact .of_eq rfl rfl rfl
  · exact .of_eq rfl rfl rfl
  · obtain ⟨u,m,rfl,⟨-,rfl⟩ | ⟨task,rest,-,rfl⟩,-⟩ := takeTask_cases htask <;>
      exact .of_eq rfl rfl rfl

theorem exit_ids {s t : ThreadManager} {w : ThreadId} {woken : Option ThreadId}
    (h : s.exit w woken = some t) : IdFrame s t := by
  obtain ⟨m,rfl⟩ := exit_cases h
  refine ⟨rfl,rfl,fun v hv => ?_⟩
  obtain rfl | hv := List.mem_cons.mp hv
  · exact .inr (Function.update_self ..)
  · exact .inl hv

theorem ids_frame {s t : ThreadManager} {a : Act} (ha : a.onIds = false) (h : s.step a = some t) :
    IdFrame s t := by
  cases step_to h with
  | addWorker | mapThread | removeWorkerTest => cases ha
  | start _ hstart =>
    obtain ⟨-,rfl⟩ | rfl | rfl := start_cases hstart <;> exact .of_eq rfl rfl rfl
  | startThread =>
    unfold startThread
    split <;> exact .of_eq rfl rfl rfl
  | addWorkerTest =>
    unfold addWorkerTest
    split <;> exact .of_eq rfl rfl rfl
  | removeWorker _ hremove => exact removeWorker_ids hremove
  | stop =>
    unfold stop
    split <;> exact .of_eq rfl rfl rfl
  | stopSection =>
    unfold stopSection
    split <;> exact .of_eq rfl rfl rfl
  | stopRemove _ hremove => exact removeWorker_ids hremove
  | add _ hadd =>
    obtain ⟨-,rfl⟩ | ⟨-,-,rfl⟩ | ⟨-,-,-,rfl⟩ | ⟨-,-,h⟩ := add_cases hadd
    · exact .of_eq rfl rfl rfl
    · exact .of_eq rfl rfl rfl
    · exact .of_eq rfl rfl rfl
    · obtain ⟨hthreads,hids,hdead⟩ := addTest_ids h
      exact ⟨hthreads,hids,hdead⟩
  | addResume _ htest => exact addTest_ids htest
  | @removeNextPending u =>
    obtain ⟨-,heq⟩ | ⟨-,heq⟩ | ⟨task,rest,-,heq⟩ := s.removeNextPending_cases u <;>
      rw [heq] <;> exact .of_eq rfl rfl rfl
  | enter =>
    unfold enter
    split <;> exact .of_eq rfl rfl rfl
  | take htake => exact take_ids htake
  | exit _ hexit => exact exit_ids hexit
  | _ => exact .of_eq rfl rfl rfl

/-- Every worker thread that is not finished is in `id_map_`, or one `AddWorker` has still
to enter it. -/
structure Listed (s : ThreadManager) : Prop where
  mapped : ∀ w ∈ s.idMap, w ∈ s.threads
  pending : ∀ v, ∀ w ∈ (s.call v).unrecorded, w ∈ s.threads ∧ w ∉ s.idMap
  apart : ∀ v v' w, w ∈ (s.call v).unrecorded → w ∈ (s.call v').unrecorded → v = v'
  once : ∀ v, (s.call v).unrecorded.Nodup
  known : ∀ w ∈ s.threads, s.phase w ≠ .finished →
    w ∈ s.idMap ∨ ∃ v, w ∈ (s.call v).unrecorded
  dead : ∀ w ∈ s.deadWorkers, s.phase w = .finished

theorem Listed.keep {s t : ThreadManager} (hs : s.Listed) (hf : IdFrame s t)
    (hcall : ∀ v, (t.call v).unrecorded = (s.call v).unrecorded)
    (hphase : ∀ w, s.phase w = .finished → t.phase w = .finished) : t.Listed where
  mapped := fun w hw => hf.threads ▸ hs.mapped w (hf.ids ▸ hw)
  pending := fun v w hw => by
    rw [hf.threads,hf.ids]
    exact hs.pending v w (hcall v ▸ hw)
  apart := fun v v' w hw hw' => hs.apart v v' w (hcall v ▸ hw) (hcall v' ▸ hw')
  once := fun v => hcall v ▸ hs.once v
  known := fun w hw hne => by
    simp only [hf.ids,hcall]
    exact hs.known w (hf.threads ▸ hw) (fun hold => hne (hphase w hold))
  dead := fun w hw => by
    obtain hold | hnew := hf.dead w hw
    · exact hphase w (hs.dead w hold)
    · exact hnew

theorem unrecorded_update (call : ThreadId → CallPhase) (u v : ThreadId) (p : CallPhase) :
    (Function.update call u p v).unrecorded =
      if v = u then p.unrecorded else (call v).unrecorded := by
  rw [Function.update_apply]
  split <;> rfl

theorem Listed.hire {s : ThreadManager} (hs : s.Listed) (hsound : s.core.Sound) {u : ThreadId}
    {ids : List ThreadId} (hu : s.call u = .none) (hn : ids.Nodup)
    (hnew : ∀ w ∈ ids, s.phase w = .absent) : (s.addWorker u ids).Listed := by
  have hfresh : ∀ w ∈ ids, w ∉ s.threads := fun w hw hmem => hsound.created w hmem (hnew w hw)
  have hcall : ∀ v, ((s.addWorker u ids).call v).unrecorded =
      if v = u then ids else (s.call v).unrecorded :=
    fun v => unrecorded_update s.call u v (.starting ids)
  have hself : (s.call u).unrecorded = [] := by rw [hu]; rfl
  refine ⟨fun w hw => List.mem_append_left _ (hs.mapped w hw),?_,?_,?_,?_,?_⟩
  · intro v w hw
    rw [hcall] at hw
    split at hw
    · exact ⟨List.mem_append_right _ hw,fun hmem => hfresh w hw (hs.mapped w hmem)⟩
    · obtain ⟨hmem,hout⟩ := hs.pending v w hw
      exact ⟨List.mem_append_left _ hmem,hout⟩
  · intro v v' w hw hw'
    rw [hcall] at hw hw'
    split at hw <;> split at hw'
    case isTrue.isTrue hv hv' => exact hv.trans hv'.symm
    case isTrue.isFalse => exact absurd (hs.pending v' w hw').1 (hfresh w hw)
    case isFalse.isTrue => exact absurd (hs.pending v w hw).1 (hfresh w hw')
    case isFalse.isFalse => exact hs.apart v v' w hw hw'
  · intro v
    rw [hcall]
    split
    · exact hn
    · exact hs.once v
  · intro w hw hne
    obtain hold | hmem := List.mem_append.mp hw
    · have hout : w ∉ ids := fun hmem => hfresh w hmem hold
      obtain hid | ⟨v,hv⟩ := hs.known w hold (by simpa [addWorker,goto,hout] using hne)
      · exact .inl hid
      · refine .inr ⟨v,?_⟩
        have hvu : v ≠ u := fun he => by
          rw [he,hself] at hv
          cases hv
        rw [hcall,if_neg hvu]
        exact hv
    · exact .inr ⟨u,by rw [hcall,if_pos rfl]; exact hmem⟩
  · intro w hw
    have hold := hs.dead w hw
    have hout : w ∉ ids := fun hmem => by
      rw [hnew w hmem] at hold
      cases hold
    simpa [addWorker,goto,hout] using hold

theorem Listed.map {s : ThreadManager} (hs : s.Listed) {u w : ThreadId} {rest : List ThreadId}
    (hu : s.call u = .mapping w rest) :
    ({ s with idMap := w :: s.idMap }.goto u (.starting rest)).Listed := by
  have hself : (s.call u).unrecorded = w :: rest := by rw [hu]; rfl
  have hcall : ∀ v, (Function.update s.call u (.starting rest) v).unrecorded =
      if v = u then rest else (s.call v).unrecorded :=
    fun v => unrecorded_update s.call u v (.starting rest)
  have honce := hs.once u
  rw [hself] at honce
  have hsub : ∀ v x, x ∈ (Function.update s.call u (.starting rest) v).unrecorded →
      x ∈ (s.call v).unrecorded := by
    intro v x hx
    rw [hcall] at hx
    split at hx
    case isTrue hv =>
      rw [hv,hself]
      exact List.mem_cons_of_mem _ hx
    case isFalse => exact hx
  have hmem : w ∈ (s.call u).unrecorded := by
    rw [hself]
    exact List.mem_cons_self
  refine ⟨fun x hx => ?_,fun v x hx => ⟨?_,?_⟩,fun v v' x hx hx' => ?_,fun v => ?_,
    fun x hx hne => ?_,hs.dead⟩
  · obtain rfl | hx := List.mem_cons.mp hx
    · exact (hs.pending u x hmem).1
    · exact hs.mapped x hx
  · exact (hs.pending v x (hsub v x hx)).1
  · intro hid
    obtain rfl | hid := List.mem_cons.mp hid
    · obtain rfl := hs.apart v u x (hsub v x hx) hmem
      have hrest : x ∈ (Function.update s.call v (.starting rest) v).unrecorded := hx
      rw [hcall,if_pos rfl] at hrest
      exact (List.nodup_cons.mp honce).1 hrest
    · exact (hs.pending v x (hsub v x hx)).2 hid
  · exact hs.apart v v' x (hsub v x hx) (hsub v' x hx')
  · change (Function.update s.call u (.starting rest) v).unrecorded.Nodup
    rw [hcall]
    split
    · exact (List.nodup_cons.mp honce).2
    · exact hs.once v
  · obtain hid | ⟨v,hv⟩ := hs.known x hx hne
    · exact .inl (List.mem_cons_of_mem _ hid)
    · by_cases hvu : v = u
      · rw [hvu,hself] at hv
        obtain rfl | hv := List.mem_cons.mp hv
        · exact .inl List.mem_cons_self
        · refine .inr ⟨u,?_⟩
          change x ∈ (Function.update s.call u (.starting rest) u).unrecorded
          rw [hcall,if_pos rfl]
          exact hv
      · refine .inr ⟨v,?_⟩
        change x ∈ (Function.update s.call u (.starting rest) v).unrecorded
        rw [hcall,if_neg hvu]
        exact hv

theorem Listed.forget {s t : ThreadManager} (hs : s.Listed) (hthreads : t.threads = s.threads)
    (hids : t.idMap = s.idMap.filter (fun w => w ∉ s.deadWorkers)) (hdead : t.deadWorkers = [])
    (hcall : ∀ v, (t.call v).unrecorded = (s.call v).unrecorded) (hphase : t.phase = s.phase) :
    t.Listed where
  mapped := fun w hw => hthreads ▸ hs.mapped w (List.mem_of_mem_filter (hids ▸ hw))
  pending := fun v w hw => by
    obtain ⟨hmem,hout⟩ := hs.pending v w (hcall v ▸ hw)
    exact ⟨hthreads ▸ hmem,fun hid => hout (List.mem_of_mem_filter (hids ▸ hid))⟩
  apart := fun v v' w hw hw' => hs.apart v v' w (hcall v ▸ hw) (hcall v' ▸ hw')
  once := fun v => hcall v ▸ hs.once v
  known := fun w hw hne => by
    simp only [hids,hcall,hphase] at hne ⊢
    obtain hid | hpending := hs.known w (hthreads ▸ hw) hne
    · refine .inl (List.mem_filter.mpr ⟨hid,?_⟩)
      exact decide_eq_true (fun hmem => hne (hs.dead w hmem))
    · exact .inr hpending
  dead := fun w hw => by
    rw [hdead] at hw
    cases hw

theorem Listed.removeWorkerTest {s : ThreadManager} (hs : s.Listed) {u : ThreadId}
    {stop : Option Bool} (hu : s.call u = .removing stop) :
    (s.removeWorkerTest u stop).Listed := by
  have hcall : ∀ (p : CallPhase), p.unrecorded = [] → ∀ v,
      (Function.update s.call u p v).unrecorded = (s.call v).unrecorded := by
    intro p hp v
    rw [unrecorded_update,hp]
    split
    case isTrue hv => rw [hv,hu]; rfl
    case isFalse => rfl
  unfold ThreadManager.removeWorkerTest
  split
  · exact hs.keep (.of_eq rfl rfl rfl) (fun _ => rfl) (fun _ hw => hw)
  · split
    · exact hs.forget rfl rfl rfl (hcall .none rfl) rfl
    · exact hs.forget rfl rfl rfl (hcall (.stopLast _ true) rfl) rfl

theorem unrecorded_step {s t : ThreadManager} {a : Act} (ha : a.onIds = false)
    (h : s.step a = some t) (v : ThreadId) :
    (t.call v).unrecorded = (s.call v).unrecorded := by
  obtain hsame | hstep := call_step h v
  · rw [hsame]
  · exact hstep.unrecorded ha

theorem Listed.step {s t : ThreadManager} {a : Act} (hs : s.Listed) (hsound : s.core.Sound)
    (h : s.step a = some t) : t.Listed := by
  by_cases hids : a.onIds = false
  · exact hs.keep (ids_frame hids h) (unrecorded_step hids h)
      (fun w hw => finished_stays hsound h hw)
  cases step_to h with
  | addWorker hcan _ _ hn hnew =>
    exact hs.hire hsound (call_of_canCall hcan) hn (fun w hw => (hnew w hw).1)
  | mapThread hu => exact hs.map hu
  | removeWorkerTest hu => exact hs.removeWorkerTest hu
  | _ => exact absurd rfl hids

/-- An `Add` that has got the lock in state `STARTED` and finds the queue full behind what
has expired. -/
def FindsFull (s : ThreadManager) (a : Act) (u : ThreadId) (timeout : Int) : Prop :=
  ∃ runnable expiration now created woken,
    a = .add u runnable timeout expiration now created true woken ∧ s.state = .started ∧
      (s.removeExpiredTasks now).full = true

def TooMany (s t : ThreadManager) (u : ThreadId) : Prop :=
  t.call u = .none ∧
    ∃ es, t.log = s.log ++ es ∧ .threw u .add .tooManyPendingTasks ∈ es

/-- A caller that `id_map_` knows does not wait. -/
theorem add_throws {s t : ThreadManager} {u : ThreadId} {runnable : RunnableId}
    {timeout expiration now created : Int} {woken : Option ThreadId} (hstate : s.state = .started)
    (hfull : (s.removeExpiredTasks now).full = true)
    (hknown : u ∈ s.idMap ∨ timeout < 0)
    (h : s.add u runnable timeout expiration now created true woken = some t) :
    TooMany s t u := by
  have hsleep : ((s.removeExpiredTasks now).canSleep u && decide (0 ≤ timeout)) = false := by
    obtain hmem | hlt := hknown
    · simp [canSleep,removeExpiredTasks,hmem]
    · simp [Int.not_le.mpr hlt]
  simp only [add,Bool.not_true,Bool.false_eq_true,if_false,hstate,ne_eq,not_true_eq_false] at h
  rw [if_pos ⟨hfull,by rw [hsleep]; rfl⟩] at h
  obtain rfl := Option.some.inj h
  refine ⟨Function.update_self ..,(s.tasks.takeWhile (Task.expired now)).map
    (fun task => .expired task.id s.expireCallback) ++ [.threw u .add .tooManyPendingTasks],?_,?_⟩
  · simp [throw,goto,record,removeExpiredTasks]
  · exact List.mem_append_right _ (List.mem_singleton.mpr rfl)

/-- A caller that `id_map_` does not know waits, unless it has said it will not. -/
theorem add_waits {s t : ThreadManager} {u : ThreadId} {runnable : RunnableId}
    {timeout expiration now created : Int} {woken : Option ThreadId} (hstate : s.state = .started)
    (hfull : (s.removeExpiredTasks now).full = true) (hunknown : u ∉ s.idMap)
    (htimeout : 0 ≤ timeout)
    (h : s.add u runnable timeout expiration now created true woken = some t) :
    (t.call u).inAdd = true := by
  have hsleep : ((s.removeExpiredTasks now).canSleep u && decide (0 ≤ timeout)) = true := by
    simp [canSleep,removeExpiredTasks,hunknown,htimeout]
  simp only [add,Bool.not_true,Bool.false_eq_true,if_false,hstate,ne_eq,not_true_eq_false] at h
  rw [if_neg (by simp [hsleep])] at h
  obtain ⟨-,rfl⟩ | ⟨hroom,-⟩ := addTest_cases h
  · simp [goto,CallPhase.inAdd]
  · rw [hfull] at hroom
    cases hroom

/-- No worker's thread waits for room. -/
def NoneWaits (s : ThreadManager) : Prop := ∀ w ∈ s.threads, (s.call w).inAdd = false

theorem phase_of_canCall {s : ThreadManager} {u : ThreadId} (h : s.canCall u = true) :
    s.phase u = .absent ∨ ∃ task, s.phase u = .executing task := by
  simp only [canCall,Bool.and_eq_true] at h
  obtain ⟨-,h⟩ := h
  split at h
  case h_1 hp => exact .inl hp
  case h_2 task hp => exact .inr ⟨task,hp⟩
  case h_3 => cases h

/-- A worker in a task that is not waiting to be entered is in `id_map_`. -/
theorem Listed.mem_ids {s : ThreadManager} (hs : s.Listed) (hsound : s.core.Sound) {u : ThreadId}
    (hu : u ∈ s.threads) (hcan : s.canCall u = true) (hout : ∀ v, u ∉ (s.call v).unrecorded) :
    u ∈ s.idMap := by
  have hphase : s.phase u ≠ .finished := by
    obtain hp | ⟨task,hp⟩ := phase_of_canCall hcan
    · exact absurd hp (hsound.created u hu)
    · simp [hp]
  obtain hmem | ⟨v,hv⟩ := hs.known u hu hphase
  · exact hmem
  · exact absurd hv (hout v)

end ThreadManager

/-- No worker's thread waits in `Add`, and each that finds the queue full throws. -/
def workersNeverWait (s : ThreadManager) (a : Act) (t : ThreadManager) : Prop :=
  t.NoneWaits ∧ ∀ u ∈ s.threads, ∀ timeout, s.FindsFull a u timeout → s.TooMany t u

/-- A worker whose `Add` finds the queue full and may wait has been entered into `id_map_` by
the `AddWorker` that made its thread. -/
def recordedInTime (s : ThreadManager) (a : Act) (_ : ThreadManager) : Prop :=
  ∀ u ∈ s.threads, ∀ timeout, 0 ≤ timeout → s.FindsFull a u timeout →
    ∀ v, u ∉ (s.call v).unrecorded

namespace ThreadManager

theorem inAdd_step {s t : ThreadManager} {a : Act} (h : s.step a = some t) {w : ThreadId}
    (hin : (t.call w).inAdd = true) : (s.call w).inAdd = true ∨
      ∃ runnable timeout expiration now created locked woken,
        a = .add w runnable timeout expiration now created locked woken := by
  obtain hsame | hstep := call_step h w
  · exact .inl (hsame ▸ hin)
  · exact hstep.inAdd hin

theorem threads_frame {s t : ThreadManager} {a : Act} (ha : a.onGrow = false)
    (h : s.step a = some t) : t.threads = s.threads := by
  by_cases hids : a.onIds = false
  · exact (ids_frame hids h).threads
  cases step_to h with
  | addWorker => cases ha
  | mapThread => rfl
  | removeWorkerTest => exact congrArg Core.threads (removeWorkerTest_core s _ _)
  | _ => exact absurd rfl hids

theorem new_thread {s t : ThreadManager} {a : Act} (h : s.step a = some t) {w : ThreadId}
    (hw : w ∈ t.threads) : w ∈ s.threads ∨ s.call w = .none := by
  by_cases hgrow : a.onGrow = false
  · exact .inl (threads_frame hgrow h ▸ hw)
  cases step_to h with
  | addWorker _ _ _ _ hnew =>
    obtain hmem | hmem := List.mem_append.mp hw
    · exact .inl hmem
    · exact .inr (hnew w hmem).2
  | _ => exact absurd rfl hgrow

/-- An `Add` that waits has found the queue full. -/
theorem full_of_inAdd {s t : ThreadManager} {u : ThreadId} {runnable : RunnableId}
    {timeout expiration now created : Int} {locked : Bool} {woken : Option ThreadId}
    (h : s.add u runnable timeout expiration now created locked woken = some t)
    (hin : (t.call u).inAdd = true) :
    locked = true ∧ s.state = .started ∧ (s.removeExpiredTasks now).full = true := by
  obtain ⟨-,rfl⟩ | ⟨-,-,rfl⟩ | ⟨-,-,-,rfl⟩ | ⟨hlocked,hstate,htest⟩ := add_cases h
  · simp [throw,goto,record,CallPhase.inAdd] at hin
  · simp [throw,goto,record,CallPhase.inAdd] at hin
  · simp [throw,goto,record,CallPhase.inAdd] at hin
  · obtain ⟨hfull,-⟩ | ⟨-,hpush⟩ := addTest_cases htest
    · exact ⟨hlocked,hstate,hfull⟩
    · obtain ⟨m,rfl,-⟩ := push_cases hpush
      simp [pushed,ret,goto,record,CallPhase.inAdd] at hin

theorem none_waits_step {s t : ThreadManager} {a : Act} (hs : s.Listed) (hsound : s.core.Sound)
    (hn : s.NoneWaits) (hc : recordedInTime s a t) (h : s.step a = some t) : t.NoneWaits := by
  intro w hw
  by_contra hin
  rw [Bool.not_eq_false] at hin
  obtain hbefore | ⟨runnable,timeout,expiration,now,created,locked,woken,rfl⟩ := inAdd_step h hin
  · obtain hold | hnone := new_thread h hw
    · rw [hn w hold] at hbefore
      cases hbefore
    · rw [hnone] at hbefore
      cases hbefore
  · have hold : w ∈ s.threads := (ids_frame rfl h).threads ▸ hw
    cases step_to h with
    | add hcan hadd =>
      obtain ⟨rfl,hstate,hfull⟩ := full_of_inAdd hadd hin
      have hknown : w ∈ s.idMap ∨ timeout < 0 := by
        by_cases hneg : timeout < 0
        · exact .inr hneg
        · exact .inl (hs.mem_ids hsound hold hcan (hc w hold timeout (Int.not_lt.mp hneg)
            ⟨_,_,_,_,_,rfl,hstate,hfull⟩))
      rw [(add_throws hstate hfull hknown hadd).1] at hin
      cases hin

theorem workersNeverWait_iff {s t : ThreadManager} {a : Act} (hs : s.Listed)
    (hsound : s.core.Sound) (hn : s.NoneWaits) (h : s.step a = some t) :
    workersNeverWait s a t ↔ recordedInTime s a t := by
  constructor
  · rintro ⟨hnone,-⟩ u hu timeout htimeout ⟨runnable,expiration,now,created,woken,rfl,hstate,hfull⟩
      v hv
    cases step_to h with
    | add hcan hadd =>
      have hin := add_waits hstate hfull (hs.pending v u hv).2 htimeout hadd
      rw [hnone u ((ids_frame rfl h).threads ▸ hu)] at hin
      cases hin
  · intro hc
    refine ⟨none_waits_step hs hsound hn hc h,?_⟩
    rintro u hu timeout ⟨runnable,expiration,now,created,woken,rfl,hstate,hfull⟩
    cases step_to h with
    | add hcan hadd =>
      refine add_throws hstate hfull ?_ hadd
      by_cases hneg : timeout < 0
      · exact .inr hneg
      · exact .inl (hs.mem_ids hsound hu hcan (hc u hu timeout (Int.not_lt.mp hneg)
          ⟨_,_,_,_,_,rfl,hstate,hfull⟩))

end ThreadManager

/-- Worker threads keep from waiting in `Add` along exactly those runs in which each is
entered into `id_map_` before it finds the queue full. -/
theorem workers_never_wait_iff (as : List Act) :
    ThreadManager.system.Along workersNeverWait as ↔
      ThreadManager.system.Along recordedInTime as := by
  refine System.alongFrom_iff (I := fun s => s.core.Sound ∧ s.Listed ∧ s.NoneWaits) ?_ ?_
  · intro s a t _ ⟨hsound,hs,hn⟩ h
    refine ⟨ThreadManager.workersNeverWait_iff hs hsound hn h,fun hc => ?_⟩
    exact ⟨ThreadManager.sound_inductive.step s a t hsound h,hs.step hsound h,
      ThreadManager.none_waits_step hs hsound hn hc h⟩
  · refine ⟨ThreadManager.sound_init,?_,fun _ hw => by cases hw⟩
    constructor <;> simp [ThreadManager.system,ThreadManager.init,CallPhase.unrecorded]

/-- `AddWorker` has started thread 1 and not entered it into `id_map_` when the task that
the thread executes adds one more to the full queue. -/
def addFromNewWorker : List Act :=
  [.setThreadFactory true,.start 0,.setPendingTaskCountMax 1,.addWorker 0 [1],.startThread 0,
    .add 2 5 0 0 0 0 true none,.enter 1,.notifyManager 1 none,.take 1 0 none,
    .add 2 6 0 0 0 0 true none]

theorem new_worker_waits :
    ¬ ∀ as, ThreadManager.system.Along workersNeverWait as := by
  intro h
  obtain ⟨hnone,-⟩ := System.AlongFrom.after addFromNewWorker
    (h (addFromNewWorker ++ [.add 1 7 0 0 0 0 true none])) rfl rfl
  exact absurd (hnone 1 (by decide)) (by decide)

end MprMq.Threading
