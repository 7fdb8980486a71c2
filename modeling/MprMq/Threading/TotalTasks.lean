import MprMq.Threading.Growth
import MprMq.Threading.WorkerIds
set_option autoImplicit false

/-! `TotalTaskCount`, while `AddWorker`, `RemoveWorker`, `Stop` and `Join` are called one at
a time. -/

namespace MprMq.Threading
open MprMq.Lib

namespace WorkerPhase

def coming : WorkerPhase → Bool
  | .created | .entering => true
  | _ => false

def busy (p : WorkerPhase) : Bool := p.registered && !p.isWaiting

end WorkerPhase

namespace Core

def coming (c : Core) : Nat := c.count WorkerPhase.coming

def busy (c : Core) : Nat := c.count WorkerPhase.busy

theorem Sound.count_waiting {c : Core} (hs : c.Sound) :
    c.registered = c.idleCount+c.busy := by
  have hwaiting : population c.phase (fun p => p.registered && p.isWaiting) c.threads =
      population c.phase WorkerPhase.isWaiting c.threads := by
    refine population_congr (fun w _ => ?_)
    by_cases hw : c.phase w = .waiting
    · rw [hw]
      rfl
    · simp [WorkerPhase.isWaiting,hw]
  rw [registered,count,population_split _ _ WorkerPhase.isWaiting,hwaiting,← hs.idle]
  rfl

theorem Sound.coming_create {c : Core} (hs : c.Sound) {ids : List ThreadId}
    (hnew : ∀ w ∈ ids, c.phase w = .absent) :
    population (fun w => if w ∈ ids then .created else c.phase w) WorkerPhase.coming
      (c.threads ++ ids) = c.coming+ids.length := by
  rw [population_append]
  refine congrArg₂ Nat.add (population_congr (fun u hu => ?_))
    (population_eq_length.mpr (fun u hu => by simp [hu,WorkerPhase.coming]))
  have hout : u ∉ ids := fun he => hs.created u hu (hnew u he)
  simp [hout]

theorem Sound.coming_move {c d : Core} (hs : c.Sound) {w : ThreadId} {p : WorkerPhase}
    (hw : w ∈ c.threads) (ht : d.threads = c.threads) (hp : d.phase = Function.update c.phase w p)
    (hq : p.coming = true → (c.phase w).coming = true) : d.coming ≤ c.coming := by
  have hcount : d.coming+(c.phase w).coming.toNat = c.coming+p.coming.toNat :=
    hs.count_move hw ht hp WorkerPhase.coming
  have hle : p.coming.toNat ≤ (c.phase w).coming.toNat := by
    cases hnew : p.coming with
    | false => exact Nat.zero_le _
    | true => simp [hq hnew]
  omega

theorem Step.coming_le {c d : Core} (h : c.Step d) (hs : c.Sound) (ht : d.threads = c.threads) :
    d.coming ≤ c.coming := by
  cases h with
  | signal | lower => exact Nat.le_refl _
  | create hn hnew =>
    obtain rfl := List.append_right_eq_self.mp ht
    exact Nat.le_of_eq (hs.coming_create hnew)
  | begin hw =>
    exact hs.coming_move (hs.mem_of_phase hw (by simp)) rfl rfl (fun _ => by rw [hw]; rfl)
  | register hw hlt hp =>
    refine hs.coming_move (hs.mem_of_phase hw (by simp)) rfl rfl (fun hq => ?_)
    obtain rfl | rfl := hp <;> cases hq
  | late hw =>
    exact hs.coming_move (p := .leaving false) (hs.mem_of_phase hw (by simp)) rfl rfl
      (fun hq => by cases hq)
  | told hw =>
    exact hs.coming_move (p := .looping) (hs.mem_of_phase hw (by simp)) rfl rfl
      (fun hq => by cases hq)
  | park hw =>
    exact hs.coming_move (p := .waiting) (hs.mem_of_atLoop hw) rfl rfl (fun hq => by cases hq)
  | go hw hp =>
    refine hs.coming_move (hs.mem_of_atLoop hw) rfl rfl (fun hq => ?_)
    obtain rfl | ⟨task,rfl⟩ := hp <;> cases hq
  | quit hw =>
    exact hs.coming_move (p := .leaving true) (hs.mem_of_atLoop hw) rfl rfl (fun hq => by cases hq)
  | finish hw =>
    exact hs.coming_move (p := .looping) (hs.mem_of_phase hw (by simp)) rfl rfl
      (fun hq => by cases hq)

/-- New threads come with room for them, and who registers takes up what it came with. -/
theorem Step.room {c d : Core} (h : c.Step d) (hs : c.Sound)
    (hmax : c.workerMaxCount ≤ d.workerMaxCount) :
    d.workerCount+d.coming+c.workerMaxCount ≤ c.workerCount+c.coming+d.workerMaxCount := by
  have hsame : d.threads = c.threads → d.workerCount = c.workerCount →
      d.workerCount+d.coming+c.workerMaxCount ≤ c.workerCount+c.coming+d.workerMaxCount := by
    intro ht hcount
    have := h.coming_le hs ht
    omega
  cases h with
  | @create ids hn hnew =>
    have hcount := hs.coming_create hnew
    simp only [coming,count] at hcount ⊢
    omega
  | @register w p hw hlt hp =>
    have hcount := hs.count_move (d := { c with workerCount := c.workerCount+1 }.move w p)
      (hs.mem_of_phase hw (by simp)) rfl rfl WorkerPhase.coming
    have hout : p.coming = false := by obtain rfl | rfl := hp <;> rfl
    rw [hw,hout] at hcount
    simp only [coming,count,move,WorkerPhase.coming,Bool.toNat_true,Bool.toNat_false] at hcount ⊢
    omega
  | _ => exact hsame rfl rfl

/-- Only a thread that found no place leaves without having registered. -/
theorem Step.leaving {c d : Core} (h : c.Step d) (hplace : ∀ w, c.phase w = .entering →
    c.workerCount < c.workerMaxCount) (hc : ∀ w, c.phase w ≠ .leaving false) :
    ∀ w, d.phase w ≠ .leaving false := by
  have hmove : ∀ {w : ThreadId} {p : WorkerPhase}, p ≠ .leaving false →
      ∀ u, Function.update c.phase w p u ≠ .leaving false := by
    intro w p hp
    rw [Function.forall_update_iff c.phase (fun _ q => q ≠ .leaving false)]
    exact ⟨hp,fun u _ => hc u⟩
  cases h with
  | signal | lower => exact hc
  | create =>
    intro u
    dsimp only
    split
    · simp
    · exact hc u
  | begin => exact hmove (by simp)
  | register _ _ hp =>
    refine hmove ?_
    obtain rfl | rfl := hp <;> simp
  | late hw hle => exact absurd (hplace _ hw) (Nat.not_lt.mpr hle)
  | told => exact hmove (by simp)
  | park => exact hmove (by simp)
  | go _ hp =>
    refine hmove ?_
    obtain rfl | ⟨task,rfl⟩ := hp <;> simp
  | quit => exact hmove (by simp)
  | finish => exact hmove (by simp)

theorem Sound.coming_pos {c : Core} (hs : c.Sound) {w : ThreadId} (hw : c.phase w = .entering) :
    0 < c.coming :=
  population_pos.mpr ⟨w,hs.mem_of_phase hw (by simp),by rw [hw]; rfl⟩

end Core

def CallPhase.control : CallPhase → Bool
  | .none | .adding .. => false
  | _ => true

def CallPhase.hiring : CallPhase → Bool
  | .starting _ | .mapping _ _ | .growing => true
  | _ => false

def Act.begunBy : Act → Option ThreadId
  | .addWorker u _ | .removeWorker u _ _ | .stop u _ => some u
  | _ => none

theorem CallPhase.control_of_hiring {p : CallPhase} (h : p.hiring = true) : p.control = true := by
  cases p <;> first | rfl | cases h

theorem CallStep.control {a : Act} {u : ThreadId} {p q : CallPhase} (h : CallStep a u p q)
    (hq : q.control = true) : p.control = true ∨ a.begunBy = some u := by
  cases h with
  | grow hp => obtain rfl | rfl := hp <;> exact .inl rfl
  | addWorker | remove | stop => exact .inr rfl
  | startThread | mapThread | removing | stopRemoved | stopFirst | stopAgain | stopRead
  | stopRemove => exact .inl rfl
  | _ => cases hq

/-- `AddWorker`, `RemoveWorker`, `Stop` and `Join` are called one at a time, each after the
one before has returned. -/
def oneByOne (s : ThreadManager) (a : Act) (_ : ThreadManager) : Prop :=
  ∀ u, a.begunBy = some u → ∀ v, (s.call v).control = false

namespace ThreadManager

def totalTaskCount (s : ThreadManager) : Nat :=
  SizeT.sub (s.tasks.length+s.workerCount) s.idleCount

/-- There are places for all the threads that come, and threads come only while `AddWorker`
is under way. -/
structure Orderly (s : ThreadManager) : Prop where
  sound : s.core.Sound
  accurate : s.core.Accurate
  alone : ∀ u v, (s.call u).control = true → (s.call v).control = true → u = v
  hiring : s.core.coming = 0 ∨ ∃ u, (s.call u).hiring = true
  room : s.workerCount+s.core.coming ≤ s.workerMaxCount ∨ ∃ u stop, s.call u = .removing stop
  registered : ∀ w, s.phase w ≠ .leaving false

/-- While `AddWorker` is under way nothing is removed. -/
theorem Orderly.room_of_hiring {s : ThreadManager} (hs : s.Orderly) {u : ThreadId}
    (hu : (s.call u).hiring = true) : s.workerCount+s.core.coming ≤ s.workerMaxCount := by
  obtain hroom | ⟨v,stop,hv⟩ := hs.room
  · exact hroom
  · obtain rfl := hs.alone u v (CallPhase.control_of_hiring hu) (by rw [hv]; rfl)
    rw [hv] at hu
    cases hu

theorem Orderly.place {s : ThreadManager} (hs : s.Orderly) (w : ThreadId)
    (hw : s.phase w = .entering) : s.workerCount < s.workerMaxCount := by
  have hpos := hs.sound.coming_pos hw
  obtain hzero | ⟨u,hu⟩ := hs.hiring
  · omega
  · have := hs.room_of_hiring hu
    omega

theorem alone_step {s t : ThreadManager} {a : Act} (hs : s.Orderly) (hc : oneByOne s a t)
    (h : s.step a = some t) (u v : ThreadId) (hu : (t.call u).control = true)
    (hv : (t.call v).control = true) : u = v := by
  obtain hcall | ⟨w,p,hcall,hstep⟩ := calls_step h
  · rw [hcall] at hu hv
    exact hs.alone u v hu hv
  · rw [hcall] at hu hv
    have hother : ∀ x, x ≠ w → (Function.update s.call w p x).control = true →
        (s.call x).control = true := by
      intro x hx hq
      rwa [Function.update_of_ne hx] at hq
    have hself : ∀ x, x ≠ w → (Function.update s.call w p x).control = true →
        (Function.update s.call w p w).control = true → x = w := by
      intro x hx hxc hwc
      rw [Function.update_self] at hwc
      obtain hold | hbegins := hstep.control hwc
      · exact hs.alone x w (hother x hx hxc) hold
      · have := hc w hbegins x
        rw [hother x hx hxc] at this
        cases this
    by_cases hu' : u = w
    · by_cases hv' : v = w
      · rw [hu',hv']
      · subst hu'
        exact (hself v hv' hv hu).symm
    · by_cases hv' : v = w
      · subst hv'
        exact hself u hu' hu hv
      · exact hs.alone u v (hother u hu' hu) (hother v hv' hv)

theorem hiring_step {s t : ThreadManager} {a : Act} (h : s.step a = some t) {u : ThreadId}
    (hu : (s.call u).hiring = true) : (t.call u).hiring = true ∨
      (s.workerCount = s.workerMaxCount ∧ t.core = s.core) := by
  obtain hsame | hstep := call_step h u
  · exact .inl (hsame ▸ hu)
  generalize hp : s.call u = p at hstep hu
  generalize hq : t.call u = q at hstep ⊢
  cases hstep with
  | startThread | mapThread | grow => exact .inl rfl
  | grown =>
    have ht : t = s.addWorkerTest u := by
      cases step_to h with
      | addWorkerTest => rfl
    refine .inr ⟨?_,ht ▸ s.addWorkerTest_core u⟩
    by_contra hne
    rw [ht] at hq
    unfold addWorkerTest at hq
    rw [if_pos hne] at hq
    simp [goto] at hq
  | _ => cases hu

theorem removing_step {s t : ThreadManager} {a : Act} (h : s.step a = some t) {u : ThreadId}
    {stop : Option Bool} (hu : s.call u = .removing stop) : t.call u = .removing stop ∨
      (s.workerCount = s.workerMaxCount ∧ t.core = s.core) := by
  obtain hsame | hstep := call_step h u
  · exact .inl (hsame.trans hu)
  have ha : a = .removeWorkerTest u := by
    rw [hu] at hstep
    generalize t.call u = q at hstep
    cases hstep with
    | removing | removed | stopRemoved => rfl
    | grow hp | grown hp => obtain hp | hp := hp <;> cases hp
  subst ha
  cases step_to h with
  | @removeWorkerTest _ stop' hu' =>
    obtain rfl := CallPhase.removing.inj (hu.symm.trans hu')
    by_cases hcount : s.workerCount = s.workerMaxCount
    · exact .inr ⟨hcount,removeWorkerTest_core s u stop⟩
    · refine .inl ?_
      unfold removeWorkerTest
      rw [if_pos hcount]
      exact hu

/-- The limit goes down in the first section of a removal alone. -/
theorem lowered {s t : ThreadManager} {a : Act} (h : s.step a = some t) :
    s.workerMaxCount ≤ t.workerMaxCount ∨ ∃ u stop, t.call u = .removing stop := by
  have hremove : ∀ {u : ThreadId} {value : Nat} {stop : Option Bool}
      {woken : List (Option ThreadId)}, s.removeWorker u value stop woken = some t →
      s.workerMaxCount ≤ t.workerMaxCount ∨ ∃ u stop, t.call u = .removing stop := by
    intro u value stop woken hremove
    obtain ⟨-,rfl⟩ | ⟨-,m,-,rfl⟩ := removeWorker_cases hremove
    · exact .inl (Nat.le_refl _)
    · exact .inr ⟨u,stop,Function.update_self ..⟩
  have hcore : t.core = s.core → s.workerMaxCount ≤ t.workerMaxCount :=
    fun he => Nat.le_of_eq (congrArg Core.workerMaxCount he).symm
  by_cases hstop : a.onStop = false
  · exact .inl (limit_le hstop h)
  cases step_to h with
  | removeWorker _ hr => exact hremove hr
  | removeWorkerTest => exact .inl (hcore (removeWorkerTest_core s _ _))
  | stopSection => exact .inl (hcore (stopSection_core s _ _))
  | stopRead | stopLast => exact .inl (Nat.le_refl _)
  | stopRemove _ hr => exact hremove hr
  | _ => exact absurd rfl hstop

/-- Without new threads no more come. -/
theorem coming_frame {s t : ThreadManager} {a : Act} (hs : s.core.Sound) (ha : a.onGrow = false)
    (h : s.step a = some t) : t.core.coming ≤ s.core.coming := by
  have hthreads := threads_frame ha h
  obtain ⟨-,hcore⟩ | ⟨w,woken,b,-,hw,ht⟩ := core_cases hs h
  · exact hcore.coming_le hs hthreads
  · rw [ht]
    exact hs.coming_move (p := .finished) (hs.mem_of_phase hw (by simp)) rfl rfl
      (fun hq => by cases hq)

theorem Orderly.counted {s t : ThreadManager} {a : Act} (hs : s.Orderly)
    (h : s.step a = some t) : t.core.Accurate := by
  obtain ⟨-,hcore⟩ | ⟨w,woken,b,-,hw,ht⟩ := core_cases hs.sound h
  · exact hcore.accurate hs.sound hs.accurate
  · have hb : b = true := by
      cases b
      · exact absurd hw (hs.registered w)
      · rfl
    rw [ht]
    exact (Core.exited_accurate hs.sound hs.accurate hw).mpr hb

theorem Orderly.hiring_kept {s t : ThreadManager} {a : Act} (hs : s.Orderly)
    (h : s.step a = some t) : t.core.coming = 0 ∨ ∃ u, (t.call u).hiring = true := by
  by_cases hgrow : a.onGrow = false
  · obtain hzero | ⟨u,hu⟩ := hs.hiring
    · have := coming_frame hs.sound hgrow h
      exact .inl (by omega)
    · obtain hstill | ⟨hcount,hcore⟩ := hiring_step h hu
      · exact .inr ⟨u,hstill⟩
      · have := hs.room_of_hiring hu
        rw [hcore]
        exact .inl (by omega)
  cases step_to h with
  | @addWorker u ids => exact .inr ⟨u,by simp [addWorker,goto,CallPhase.hiring]⟩
  | _ => exact absurd rfl hgrow

theorem Orderly.room_kept {s t : ThreadManager} {a : Act} (hs : s.Orderly)
    (h : s.step a = some t) :
    t.workerCount+t.core.coming ≤ t.workerMaxCount ∨ ∃ u stop, t.call u = .removing stop := by
  obtain hroom | ⟨u,stop,hu⟩ := hs.room
  · obtain hle | hlow := lowered h
    case inr => exact .inr hlow
    left
    obtain ⟨-,hcore⟩ | ⟨w,woken,b,rfl,hw,ht⟩ := core_cases hs.sound h
    · have hstep := hcore.room hs.sound hle
      change t.workerCount+t.core.coming+s.workerMaxCount ≤
        s.workerCount+s.core.coming+t.workerMaxCount at hstep
      omega
    · have hcoming := coming_frame hs.sound rfl h
      have hcount : t.workerCount = SizeT.dec s.workerCount := congrArg Core.workerCount ht
      have hpos : 0 < s.workerCount := by
        rw [show s.workerCount = s.core.registered from hs.accurate]
        refine population_pos.mpr ⟨w,hs.sound.mem_of_phase hw (by simp),?_⟩
        cases b
        · exact absurd hw (hs.registered w)
        · rw [show s.core.phase w = .leaving true from hw]
          rfl
      have hdec := SizeT.dec_add_one hpos
      omega
  · obtain hstill | ⟨hcount,hcore⟩ := removing_step h hu
    · exact .inr ⟨u,stop,hstill⟩
    · have hlimit : t.workerMaxCount = s.workerMaxCount := congrArg Core.workerMaxCount hcore
      have hsame : t.workerCount = s.workerCount := congrArg Core.workerCount hcore
      have hzero : s.core.coming = 0 := by
        obtain hzero | ⟨v,hv⟩ := hs.hiring
        · exact hzero
        · have := hs.room_of_hiring hv
          omega
      rw [hcore]
      exact .inl (by omega)

theorem Orderly.registered_kept {s t : ThreadManager} {a : Act} (hs : s.Orderly)
    (h : s.step a = some t) : ∀ w, t.phase w ≠ .leaving false := by
  obtain ⟨-,hcore⟩ | ⟨w,woken,b,-,hw,ht⟩ := core_cases hs.sound h
  · exact hcore.leaving hs.place hs.registered
  · have hphase : t.phase = Function.update s.phase w .finished := congrArg Core.phase ht
    rw [hphase,Function.forall_update_iff s.phase (fun _ q => q ≠ .leaving false)]
    exact ⟨by simp,fun u _ => hs.registered u⟩

theorem Orderly.step {s t : ThreadManager} {a : Act} (hs : s.Orderly) (hc : oneByOne s a t)
    (h : s.step a = some t) : t.Orderly :=
  ⟨sound_inductive.step s a t hs.sound h,hs.counted h,alone_step hs hc h,hs.hiring_kept h,
    hs.room_kept h,hs.registered_kept h⟩

theorem orderly_init : init.Orderly where
  sound := sound_init
  accurate := rfl
  alone := fun u v hu => by cases hu
  hiring := .inl rfl
  room := .inl (Nat.le_refl _)
  registered := fun w hw => by cases hw

/-- As many are idle as registered at most, and the total is the queue and the workers that
are busy. -/
structure Totalled (s : ThreadManager) : Prop where
  idle : s.idleCount ≤ s.workerCount
  total : s.totalTaskCount = s.tasks.length+s.core.busy

theorem Orderly.totalled {s : ThreadManager} (hs : s.Orderly) : s.Totalled := by
  have hcount : s.workerCount = s.idleCount+s.core.busy := by
    rw [show s.workerCount = s.core.registered from hs.accurate]
    exact hs.sound.count_waiting
  have hidle : s.idleCount ≤ s.workerCount := by omega
  refine ⟨hidle,?_⟩
  rw [totalTaskCount,SizeT.sub_add _ hidle]
  omega

end ThreadManager

/-- Along every run with one of these calls at a time `TotalTaskCount` counts the tasks that
wait and the workers that do not. -/
theorem total_task_count {as : List Act} (h : ThreadManager.system.Along oneByOne as) :
    ThreadManager.system.Always ThreadManager.Totalled as :=
  ⟨ThreadManager.orderly_init.totalled,
    System.AlongFrom.guarded
      (fun _ _ _ hs ht hc => ⟨hs.step hc ht,(hs.step hc ht).totalled⟩)
      ThreadManager.orderly_init h⟩

theorem ThreadManager.call_of_begunBy {s t : ThreadManager} {a : Act} (h : s.step a = some t)
    {u : ThreadId} (hu : a.begunBy = some u) : s.call u = .none := by
  cases ThreadManager.step_to h with
  | addWorker hcan | removeWorker hcan | stop _ hcan =>
    obtain rfl := Option.some.inj hu
    exact ThreadManager.call_of_canCall hcan
  | _ => cases hu

/-- One thread that makes all these calls makes them one at a time. -/
theorem oneByOne_of_one {u : ThreadId} {as : List Act}
    (h : ∀ a ∈ as, a.begunBy = none ∨ a.begunBy = some u) :
    ThreadManager.system.Along oneByOne as := by
  refine System.AlongFrom.guarded (I := fun s => ∀ v, v ≠ u → (s.call v).control = false)
    (C := fun _ a _ => a.begunBy = none ∨ a.begunBy = some u) ?_ (fun _ _ => rfl)
    (System.alongFrom_of_labels (fun _ _ _ ha => ha) h)
  intro s a t hs ht ha
  have hby : ∀ v, a.begunBy = some v → v = u := by
    intro v hv
    obtain ha | ha := ha
    · rw [ha] at hv
      cases hv
    · exact Option.some.inj (hv.symm.trans ha)
  refine ⟨fun v hne => ?_,fun v hv x => ?_⟩
  · by_contra hin
    rw [Bool.not_eq_false] at hin
    obtain hsame | hstep := ThreadManager.call_step ht v
    · rw [hsame,hs v hne] at hin
      cases hin
    · obtain hold | hbegun := hstep.control hin
      · rw [hs v hne] at hold
        cases hold
      · exact hne (hby v hbegun)
  · obtain rfl := hby v hv
    by_cases hx : x = v
    · rw [hx,ThreadManager.call_of_begunBy ht hv]
      rfl
    · exact hs x hx

def hireAndRemove : List Act :=
  [.setThreadFactory true,.start 0,.addWorker 0 [1,2],.startThread 0,.mapThread 0,
    .startThread 0,.mapThread 0,.enter 1,.enter 2,.notifyManager 2 none,.addWorkerTest 0,
    .take 1 0 none,.take 2 0 none,.add 3 5 0 0 0 0 true (some 1),.take 1 0 none,
    .removeWorker 0 1 [],.finish 1,.take 1 0 none,.exit 1 none,.removeWorkerTest 0]

theorem hire_and_remove_totals :
    ThreadManager.system.Always ThreadManager.Totalled hireAndRemove :=
  total_task_count (oneByOne_of_one (u := 0) (by decide))

end MprMq.Threading
