import MprMq.Lib.Population
import MprMq.Server.AmqpServer
set_option autoImplicit false

/-! What `total_tasks_` counts, and what a `Join` that waits for it to reach zero has
waited for. -/

namespace MprMq.Server
open MprMq.Lib

def ExecutorPhase.done (p : ExecutorPhase) : Bool := p = .finished

def AmqpServer.finishedCount (s : AmqpServer) : Nat :=
  population s.executors ExecutorPhase.done s.threadPool

/-- `total` is what the counter counts: the services registered now, less the executors
that have finished. -/
structure AmqpServer.Accounted (s : AmqpServer) : Prop where
  total : s.totalTasks + s.finishedCount = s.serviceExecutorList.length
  fresh : ∀ e ∈ s.serviceExecutorList, e.id < s.nextExecutor
  distinct : (s.serviceExecutorList.map ServiceExecutor.id).Nodup
  poolDistinct : s.threadPool.Nodup
  launched : ∀ e, s.executors e ≠ .idle → e ∈ s.threadPool
  unlaunched : s.state = .new → s.threadPool = []
  joiner : ∀ thread d, s.calls thread = .joining d → s.mu = some thread ∧ s.state ≠ .new
  parked : ∀ thread ∈ s.monitor, (∃ d, s.calls thread = .joining d) ∧ 0 < s.totalTasks
  waiters : s.monitor.Nodup

theorem AmqpServer.accounted_init : AmqpServer.init.Accounted := by
  constructor <;> simp [init,finishedCount,population]

/-- One parked thread at most: it holds `mu_`. -/
theorem AmqpServer.Accounted.alone {s : AmqpServer} (hi : s.Accounted) {t u : ThreadId}
    (ht : t ∈ s.monitor) (hu : u ∈ s.monitor) : t = u := by
  obtain ⟨⟨d,hd⟩,-⟩ := hi.parked t ht
  obtain ⟨⟨d',hd'⟩,-⟩ := hi.parked u hu
  have hmu := (hi.joiner t d hd).1
  rw [(hi.joiner u d' hd').1] at hmu
  exact (Option.some.inj hmu).symm

theorem AmqpServer.Accounted.unjoined {s : AmqpServer} (hi : s.Accounted) (h : s.mu = none)
    (thread : ThreadId) (d : Bool) : s.calls thread ≠ .joining d := by
  intro hj
  have := (hi.joiner thread d hj).1
  rw [h] at this
  cases this

theorem AmqpServer.Accounted.monitor_nil {s : AmqpServer} (hi : s.Accounted)
    (h : s.mu = none) : s.monitor = [] := by
  rw [List.eq_nil_iff_forall_not_mem]
  intro t ht
  obtain ⟨⟨d,hd⟩,-⟩ := hi.parked t ht
  exact hi.unjoined h t d hd

/-- What `RemoveAsyncService` takes from the list it takes from the counter. -/
theorem removeLoop_total (service : ServiceId) (list : List ServiceExecutor) (n : Int) :
    (removeLoop service list n).2 + list.length = n + (removeLoop service list n).1.length := by
  induction list generalizing n with
  | nil => rfl
  | cons it rest ih =>
    unfold removeLoop
    split
    · have := ih (n-1)
      simp only [List.length_cons]
      omega
    · have := ih n
      simp only [List.length_cons]
      omega

theorem removeLoop_sublist (service : ServiceId) (list : List ServiceExecutor) (n : Int) :
    (removeLoop service list n).1.Sublist list := by
  induction list generalizing n with
  | nil => exact List.Sublist.refl _
  | cons it rest ih =>
    unfold removeLoop
    split
    · exact (ih (n-1)).cons it
    · exact (ih n).cons_cons it

theorem AmqpServer.Accounted.insert {s : AmqpServer} (hi : s.Accounted) (service : ServiceId) :
    (s.insertAsyncService service).1.Accounted := by
  unfold insertAsyncService
  split
  · exact hi
  · refine { hi with total := ?_, fresh := ?_, distinct := ?_, parked := ?_ }
    · have := hi.total
      simp only [finishedCount,List.length_append,List.length_singleton] at this ⊢
      omega
    · intro e he
      obtain he | he := List.mem_append.mp he
      · exact Nat.lt_succ_of_lt (hi.fresh e he)
      · rw [List.mem_singleton.mp he]
        exact Nat.lt_succ_self _
    · rw [List.map_append,List.map_singleton,List.nodup_append]
      refine ⟨hi.distinct,List.nodup_singleton _,?_⟩
      intro i hmem j hj
      obtain ⟨e,he,rfl⟩ := List.mem_map.mp hmem
      rw [List.mem_singleton.mp hj]
      exact Nat.ne_of_lt (hi.fresh e he)
    · intro thread hmem
      obtain ⟨hd,hpos⟩ := hi.parked thread hmem
      exact ⟨hd,Int.lt_add_one_of_le (Int.le_of_lt hpos)⟩

theorem AmqpServer.Accounted.remove {s : AmqpServer} (hi : s.Accounted) (h : s.mu = none)
    (service : ServiceId) : (s.removeAsyncService service).1.Accounted := by
  have hsub := removeLoop_sublist service s.serviceExecutorList s.totalTasks
  refine { hi with total := ?_, fresh := ?_, distinct := ?_, parked := ?_ }
  · have := hi.total
    have := removeLoop_total service s.serviceExecutorList s.totalTasks
    simp only [finishedCount,removeAsyncService] at *
    omega
  · exact fun e he => hi.fresh e (hsub.subset he)
  · exact hi.distinct.sublist (hsub.map _)
  · intro thread hmem
    have hnil : s.monitor = [] := hi.monitor_nil h
    simp [removeAsyncService,hnil] at hmem

theorem AmqpServer.Accounted.start {s : AmqpServer} (hi : s.Accounted) :
    s.start.1.Accounted := by
  unfold AmqpServer.start
  split
  case h_1 hnew =>
    have hpool := hi.unlaunched hnew
    have hidle : ∀ e, s.executors e = .idle := by
      intro e
      by_contra hne
      have := hi.launched e hne
      simp [hpool] at this
    have hzero : ∀ phase : ExecutorId → ExecutorPhase, (∀ e, phase e ≠ .finished) →
        ∀ ids, population phase ExecutorPhase.done ids = 0 := by
      intro phase hp ids
      exact population_eq_zero.mpr (fun e _ => by simp [ExecutorPhase.done,hp e])
    refine { hi with
      total := ?_, poolDistinct := ?_, launched := ?_, unlaunched := ?_, joiner := ?_ }
    · have htotal := hi.total
      simp only [finishedCount,launch] at htotal ⊢
      rw [hzero _ (fun e => by rw [hidle e]; decide)] at htotal
      rw [hzero]
      · exact htotal
      · intro e
        split
        · decide
        · rw [hidle e]; decide
    · simpa [launch,hpool] using hi.distinct
    · intro e he
      simp only [launch,hpool,List.nil_append] at he ⊢
      by_contra hmem
      exact he (by rw [if_neg hmem]; exact hidle e)
    · intro h
      cases h
    · intro thread d hj
      exact absurd hnew (hi.joiner thread d hj).2
  · exact hi
  · exact hi

theorem AmqpServer.Accounted.stop {s : AmqpServer} (hi : s.Accounted) :
    s.stop.1.Accounted := by
  have hstop : { s with state := State.stopped }.Accounted :=
    { hi with
      unlaunched := fun h => by cases h
      joiner := fun thread d hj => ⟨(hi.joiner thread d hj).1,fun h => by cases h⟩ }
  unfold AmqpServer.stop
  split
  · exact hstop
  · exact hstop
  · exact hi

theorem AmqpServer.Accounted.call {s : AmqpServer} (hi : s.Accounted) (thread : ThreadId)
    {p : CallPhase} (h : s.mu = none) (hp : ∀ d, p ≠ .joining d) :
    { s with calls := Function.update s.calls thread p }.Accounted := by
  refine { hi with joiner := ?_, parked := ?_ }
  · intro u d hu
    obtain ⟨-,hd⟩ | ⟨-,hu⟩ := update_cases hu
    · exact absurd hd (hp d)
    · exact absurd hu (hi.unjoined h u d)
  · intro u hu
    have hnil : s.monitor = [] := hi.monitor_nil h
    simp [hnil] at hu

theorem AmqpServer.Accounted.destroy {s : AmqpServer} (hi : s.Accounted) (h : s.mu = none)
    (thread : ThreadId) :
    { s.stop.1 with
      calls := Function.update s.calls thread .destroying, dying := true }.Accounted := by
  have hmu : s.stop.1.mu = none := by
    unfold AmqpServer.stop
    split <;> exact h
  have hcalls : s.stop.1.calls = s.calls := by
    unfold AmqpServer.stop
    split <;> rfl
  have := hi.stop.call thread (p := .destroying) hmu (fun d => by simp)
  rw [hcalls] at this
  exact { this with }

theorem AmqpServer.Accounted.join {s : AmqpServer} (hi : s.Accounted) (h : s.mu = none)
    (thread : ThreadId) (d : Bool) : (s.join thread d).Accounted := by
  have hwait : s.state ≠ .new → { s with
      mu := some thread
      calls := Function.update s.calls thread (.joining d) }.Accounted := by
    intro hne
    refine { hi with joiner := ?_, parked := ?_ }
    · intro u d' hu
      obtain ⟨rfl,-⟩ | ⟨-,hu⟩ := update_cases hu
      · exact ⟨rfl,hne⟩
      · exact absurd hu (hi.unjoined h u d')
    · intro u hu
      have hnil : s.monitor = [] := hi.monitor_nil h
      simp [hnil] at hu
  unfold AmqpServer.join
  split
  case h_1 hnew =>
    have := hi.stop.call thread (p := .idle)
      (by simp [AmqpServer.stop,hnew,h]) (fun d => by simp)
    simpa [AmqpServer.stop,hnew] using this
  case h_2 hst => exact hwait (by simp [hst])
  case h_3 hst => exact hwait (by simp [hst])

theorem AmqpServer.Accounted.joinTest {s : AmqpServer} (hi : s.Accounted)
    {thread : ThreadId} {d : Bool} (hj : s.calls thread = .joining d) :
    (s.joinTest thread).Accounted := by
  unfold AmqpServer.joinTest
  split
  case isTrue hpos =>
    refine { hi with parked := ?_, waiters := Waiters.nodup_park hi.waiters thread }
    intro u hu
    obtain rfl | hu := Waiters.mem_park.mp hu
    · exact ⟨⟨d,hj⟩,hpos⟩
    · exact hi.parked u hu
  case isFalse hpos =>
    refine { hi with
      joiner := ?_, parked := ?_, waiters := Waiters.nodup_leave hi.waiters thread }
    · intro u d' hu
      obtain ⟨-,hd⟩ | ⟨he,hu⟩ := update_cases hu
      · cases hd
      · have hmu := (hi.joiner u d' hu).1
        rw [(hi.joiner thread d hj).1] at hmu
        exact absurd (Option.some.inj hmu).symm he
    · intro u hu
      exact absurd (hi.parked u ((Waiters.mem_leave hi.waiters).mp hu).2).2 hpos

theorem AmqpServer.Accounted.launched_update {s : AmqpServer} (hi : s.Accounted)
    {e u : ExecutorId} {p : ExecutorPhase} (he : e ∈ s.threadPool)
    (h : Function.update s.executors e p u ≠ .idle) : u ∈ s.threadPool := by
  by_cases hue : u = e
  · exact hue ▸ he
  · rw [Function.update_of_ne hue] at h
    exact hi.launched u h

theorem AmqpServer.Accounted.loopReturned {s : AmqpServer} (hi : s.Accounted)
    {e : ExecutorId} (he : s.executors e = .running) :
    { s with executors := Function.update s.executors e .returned }.Accounted := by
  have hmem : e ∈ s.threadPool := hi.launched e (by simp [he])
  refine { hi with total := ?_, launched := ?_ }
  · have := hi.total
    have := population_update s.executors ExecutorPhase.done .returned hi.poolDistinct hmem
    simp only [finishedCount,he,ExecutorPhase.done] at *
    simp at this
    omega
  · exact fun u hu => hi.launched_update hmem hu

/-- A finishing executor takes one off the counter, and at zero the `Join` that is
parked, if one is, gets the signal. -/
theorem AmqpServer.Accounted.finish {s t : AmqpServer} (hi : s.Accounted) {e : ExecutorId}
    {woken : Option ThreadId} (he : s.executors e = .returned)
    (h : s.finish e woken = some t) : t.Accounted := by
  have hmem : e ∈ s.threadPool := hi.launched e (by simp [he])
  have hcount := population_update s.executors ExecutorPhase.done .finished hi.poolDistinct hmem
  have htotal := hi.total
  simp only [finishedCount,he,ExecutorPhase.done] at hcount htotal
  simp at hcount
  have hlaunched : ∀ u, Function.update s.executors e .finished u ≠ .idle →
      u ∈ s.threadPool := fun u hu => hi.launched_update hmem hu
  simp only [AmqpServer.finish] at h
  split at h
  case isTrue hzero =>
    obtain ⟨m,hm,rfl⟩ := Option.map_eq_some_iff.mp h
    refine { hi with
      total := ?_, launched := hlaunched, parked := ?_
      waiters := Waiters.nodup_notify hm hi.waiters }
    · simp only [finishedCount]
      omega
    · intro u hu
      have hu' := Waiters.notify_subset hm u hu
      obtain ⟨v,hv,hgone⟩ := Waiters.notify_wakes hm hi.waiters (List.ne_nil_of_mem hu')
      rw [hi.alone hv hu'] at hgone
      exact absurd hu hgone
  case isFalse hzero =>
    obtain ⟨-,h⟩ := Option.ite_none_right_eq_some.mp h
    obtain rfl := Option.some.inj h
    refine { hi with total := ?_, launched := hlaunched, parked := ?_ }
    · simp only [finishedCount]
      omega
    · intro u hu
      obtain ⟨hd,hpos⟩ := hi.parked u hu
      refine ⟨hd,?_⟩
      simp only at hzero ⊢
      omega

theorem AmqpServer.accounted_step {s t : AmqpServer} {a : ServerAct} (hi : s.Accounted)
    (h : s.step a = some t) : t.Accounted := by
  cases step_to h with
  | insert service => exact hi.insert service
  | remove service ho => exact hi.remove (open_mu ho) service
  | start => exact hi.start
  | stop => exact hi.stop
  | join ho => exact hi.join (open_mu ho) _ false
  | joinLast hmu => exact hi.join hmu _ true
  | destroy ho => exact hi.destroy (open_mu ho) _
  | joinTest hj => exact hi.joinTest hj
  | loopReturned he => exact hi.loopReturned he
  | finish he hfinish => exact hi.finish he hfinish

theorem AmqpServer.accounted : AmqpServer.system.Inductive AmqpServer.Accounted :=
  ⟨accounted_init,fun _ _ _ hi h => accounted_step hi h⟩

theorem AmqpServer.finish_frame {s t : AmqpServer} {e : ExecutorId} {woken : Option ThreadId}
    (h : s.finish e woken = some t) :
    t.serviceExecutorList = s.serviceExecutorList ∧ t.threadPool = s.threadPool ∧
      t.calls = s.calls ∧ t.executors = Function.update s.executors e .finished := by
  simp only [AmqpServer.finish] at h
  split at h
  · obtain ⟨m,-,rfl⟩ := Option.map_eq_some_iff.mp h
    exact ⟨rfl,rfl,rfl,rfl⟩
  · obtain ⟨-,h⟩ := Option.ite_none_right_eq_some.mp h
    obtain rfl := Option.some.inj h
    exact ⟨rfl,rfl,rfl,rfl⟩

/-- While a `Join` holds `mu_`, only it and the executors move: what is registered and
what was launched stay, and an executor that is not running does not start to. -/
theorem AmqpServer.step_frame {s t : AmqpServer} {a : ServerAct} {u : ThreadId}
    (hmu : s.mu = some u) (h : s.step a = some t) :
    t.serviceExecutorList = s.serviceExecutorList ∧ t.threadPool = s.threadPool ∧
      (∀ v d, t.calls v = .joining d → s.calls v = .joining d) ∧
      ∀ e, t.executors e = .running → s.executors e = .running := by
  have hheld : s.mu ≠ none := by simp [hmu]
  cases step_to h with
  | insert _ ho | remove _ ho | start ho | stop ho | join ho | destroy ho =>
    exact absurd (open_mu ho) hheld
  | joinLast hfree => exact absurd hfree hheld
  | joinTest =>
    unfold AmqpServer.joinTest
    split
    · exact ⟨rfl,rfl,fun _ _ hv => hv,fun _ he => he⟩
    · refine ⟨rfl,rfl,fun v d hv => ?_,fun _ he => he⟩
      obtain ⟨-,hd⟩ | ⟨-,hv⟩ := update_cases hv
      · cases hd
      · exact hv
  | loopReturned =>
    refine ⟨rfl,rfl,fun _ _ hv => hv,fun e' he' => ?_⟩
    obtain ⟨-,hd⟩ | ⟨-,he'⟩ := update_cases he'
    · cases hd
    · exact he'
  | finish _ hfinish =>
    obtain ⟨hlist,hpool,hcalls,hexec⟩ := finish_frame hfinish
    refine ⟨hlist,hpool,fun _ _ hv => hcalls ▸ hv,fun e' he' => ?_⟩
    rw [hexec] at he'
    obtain ⟨-,hd⟩ | ⟨-,he'⟩ := update_cases he'
    · cases hd
    · exact he'

/-- A `Join` that gets to the loop does so from the call it was made by. -/
theorem AmqpServer.step_joining {s t : AmqpServer} {a : ServerAct} {u : ThreadId} {d : Bool}
    (hi : s.Accounted) (h : s.step a = some t) (hj : t.calls u = .joining d) :
    (s.calls u = .joining d ∧ s.mu = some u) ∨
      (a = .join u ∧ s.state ≠ .new ∧ t.serviceExecutorList = s.serviceExecutorList ∧
        t.threadPool = s.threadPool ∧ t.executors = s.executors) := by
  cases hmu : s.mu with
  | some v =>
    have hs := (step_frame hmu h).2.2.1 u d hj
    exact .inl ⟨hs,hmu ▸ (hi.joiner u d hs).1⟩
  | none =>
    have hnone : s.calls u ≠ .joining d := hi.unjoined hmu u d
    right
    cases step_to h with
    | join | joinLast =>
      unfold AmqpServer.join at hj ⊢
      split at hj
      case h_1 =>
        obtain ⟨-,hd⟩ | ⟨-,hv⟩ := update_cases hj
        · cases hd
        · exact absurd hv hnone
      case h_2 hst =>
        obtain ⟨rfl,-⟩ | ⟨-,hv⟩ := update_cases hj
        · simp [hst]
        · exact absurd hv hnone
      case h_3 hst =>
        obtain ⟨rfl,-⟩ | ⟨-,hv⟩ := update_cases hj
        · simp [hst]
        · exact absurd hv hnone
    | insert =>
      unfold insertAsyncService at hj
      split at hj <;> exact absurd hj hnone
    | remove | loopReturned => exact absurd hj hnone
    | start =>
      unfold AmqpServer.start at hj
      split at hj <;> exact absurd hj hnone
    | stop =>
      unfold AmqpServer.stop at hj
      split at hj <;> exact absurd hj hnone
    | destroy =>
      obtain ⟨-,hd⟩ | ⟨-,hv⟩ := update_cases hj
      · cases hd
      · exact absurd hv hnone
    | joinTest hv => exact absurd hv (hi.unjoined hmu _ _)
    | finish _ hfinish =>
      rw [(finish_frame hfinish).2.2.1] at hj
      exact absurd hj hnone

/-- As many services are registered as there are launched executors, or none of these
is running any more. -/
def AmqpServer.Covered (s : AmqpServer) : Prop :=
  s.threadPool.length ≤ s.serviceExecutorList.length ∨
    ∀ e ∈ s.threadPool, s.executors e ≠ .running

/-- At most as many services are registered as there are launched executors. -/
def AmqpServer.Served (s : AmqpServer) : Prop :=
  s.serviceExecutorList.length ≤ s.threadPool.length

instance AmqpServer.decidableCovered : DecidablePred AmqpServer.Covered :=
  fun s => inferInstanceAs (Decidable (s.threadPool.length ≤ s.serviceExecutorList.length ∨
    ∀ e ∈ s.threadPool, s.executors e ≠ .running))

instance AmqpServer.decidableServed : DecidablePred AmqpServer.Served :=
  fun s => inferInstanceAs (Decidable (s.serviceExecutorList.length ≤ s.threadPool.length))

/-- A `Join` called in state `STARTED` or `STOPPED` finds `C`. -/
def joinFinds (C : AmqpServer → Prop) [DecidablePred C] (s : AmqpServer) : ServerAct → Bool
  | .join _ => s.state = .new || C s
  | _ => true

/-- The step in which a `Join` called in state `STARTED` or `STOPPED` returns. -/
def JoinReturns (s : AmqpServer) (a : ServerAct) (t : AmqpServer) : Prop :=
  ∃ thread d, a = .joinTest thread ∧ s.calls thread = .joining d ∧ t.calls thread = .idle

/-- A `Join` is blocked in the wait, not notified, with no executor left to finish. -/
def AmqpServer.Stuck (s : AmqpServer) : Prop :=
  (∃ thread, thread ∈ s.monitor) ∧ ∀ e ∈ s.threadPool, s.executors e = .finished

/-- What a `Join` finds when it is called it finds until it returns, if no executor
and no `mu_` holder can undo it. -/
theorem AmqpServer.joining_keeps {C : AmqpServer → Prop} [DecidablePred C]
    (hC : ∀ s t : AmqpServer, t.serviceExecutorList = s.serviceExecutorList →
      t.threadPool = s.threadPool → (∀ e, t.executors e = .running → s.executors e = .running) →
      C s → C t)
    {s t : AmqpServer} {a : ServerAct} (hi : s.Accounted)
    (hj : ∀ thread d, s.calls thread = .joining d → C s) (h : s.step a = some t)
    (ha : joinFinds C s a) : ∀ thread d, t.calls thread = .joining d → C t := by
  intro thread d ht
  obtain ⟨hs,hmu⟩ | ⟨rfl,hst,hlist,hpool,hexec⟩ := step_joining hi h ht
  · obtain ⟨hlist,hpool,-,hexec⟩ := step_frame hmu h
    exact hC s t hlist hpool hexec (hj thread d hs)
  · exact hC s t hlist hpool (fun e he => hexec ▸ he) (by simpa [joinFinds,hst] using ha)

theorem AmqpServer.covered_keeps (s t : AmqpServer)
    (hlist : t.serviceExecutorList = s.serviceExecutorList) (hpool : t.threadPool = s.threadPool)
    (hexec : ∀ e, t.executors e = .running → s.executors e = .running) (h : s.Covered) :
    t.Covered := by
  obtain h | h := h
  · exact .inl (by rw [hlist,hpool]; exact h)
  · exact .inr (fun e he hr => h e (hpool ▸ he) (hexec e hr))

/-- When the counter is down, a covered server has no executor running. -/
theorem AmqpServer.Accounted.quiet {s : AmqpServer} (hi : s.Accounted) (hc : s.Covered)
    (h : s.totalTasks ≤ 0) (e : ExecutorId) : s.executors e ≠ .running := by
  intro hr
  have hmem : e ∈ s.threadPool := hi.launched e (by simp [hr])
  obtain hc | hc := hc
  · have htotal := hi.total
    have hle : s.finishedCount ≤ s.threadPool.length := population_le_length _ _ _
    have hall := population_eq_length.mp
      (show s.finishedCount = s.threadPool.length by omega) e hmem
    simp [hr,ExecutorPhase.done] at hall
  · exact hc e hmem hr

theorem join_returns_quiet (as : List ServerAct)
    (h : AmqpServer.system.Along (fun s a _ => joinFinds AmqpServer.Covered s a) as) :
    AmqpServer.system.Along
      (fun s a t => JoinReturns s a t → ∀ e, t.executors e ≠ .running) as := by
  refine System.AlongFrom.guarded
    (I := fun s => s.Accounted ∧ ∀ thread d, s.calls thread = .joining d → s.Covered)
    ?_ ⟨AmqpServer.accounted_init,fun _ _ hd => by cases hd⟩ h
  intro s a t ⟨hi,hj⟩ hs ha
  refine ⟨⟨AmqpServer.accounted_step hi hs,
    AmqpServer.joining_keeps AmqpServer.covered_keeps hi hj hs ha⟩,?_⟩
  rintro ⟨thread,d,rfl,hcall,hidle⟩ e
  have hs : some (s.joinTest thread) = some t := by
    simpa [AmqpServer.system,AmqpServer.step,hcall] using hs
  obtain rfl := Option.some.inj hs
  unfold AmqpServer.joinTest at hidle ⊢
  split at hidle
  case isTrue => simp [hcall] at hidle
  case isFalse hpos =>
    rw [if_neg hpos]
    exact hi.quiet (hj thread d hcall) (Int.not_lt.mp hpos) e

theorem join_waits_for_executor : AmqpServer.system.Along
    (fun s a t => JoinReturns s a t → ∀ e, t.executors e ≠ .running)
    [.insert 0,.start,.join 1,.joinTest 1,.loopReturned 0,.finish 0 (some 1),.joinTest 1] :=
  join_returns_quiet _ (System.alongFrom_of_check (joinFinds AmqpServer.Covered) (by decide))

/-- A service is removed while its executor runs. -/
def removedWhileRunning : List ServerAct := [.insert 0,.start,.remove 0,.join 1]

theorem join_before_executor_ends :
    ¬ ∀ as, AmqpServer.system.Along
      (fun s a t => JoinReturns s a t → ∀ e, t.executors e ≠ .running) as := by
  intro h
  have hquiet := System.AlongFrom.after removedWhileRunning
    (h (removedWhileRunning ++ [.joinTest 1])) rfl rfl
  exact hquiet ⟨1,false,rfl,rfl,rfl⟩ 0 rfl

theorem AmqpServer.served_keeps (s t : AmqpServer)
    (hlist : t.serviceExecutorList = s.serviceExecutorList) (hpool : t.threadPool = s.threadPool)
    (_ : ∀ e, t.executors e = .running → s.executors e = .running) (h : s.Served) :
    t.Served := by
  unfold AmqpServer.Served at h ⊢
  rw [hlist,hpool]
  exact h

theorem AmqpServer.Accounted.not_stuck {s : AmqpServer} (hi : s.Accounted)
    (hj : ∀ thread d, s.calls thread = .joining d → s.Served) : ¬ s.Stuck := by
  rintro ⟨⟨thread,hmem⟩,hall⟩
  obtain ⟨⟨d,hd⟩,hpos⟩ := hi.parked thread hmem
  have hserved : s.Served := hj thread d hd
  have htotal := hi.total
  have hdone : s.finishedCount = s.threadPool.length :=
    population_eq_length.mpr (fun e he => by simp [hall e he,ExecutorPhase.done])
  unfold AmqpServer.Served at hserved
  omega

theorem join_never_stuck (as : List ServerAct)
    (h : AmqpServer.system.Along (fun s a _ => joinFinds AmqpServer.Served s a) as) :
    AmqpServer.system.Always (fun s => ¬ s.Stuck) as := by
  refine ⟨fun ⟨⟨_,hmem⟩,_⟩ => (by cases hmem),?_⟩
  refine System.AlongFrom.guarded
    (I := fun s => s.Accounted ∧ ∀ thread d, s.calls thread = .joining d → s.Served)
    ?_ ⟨AmqpServer.accounted_init,fun _ _ hd => by cases hd⟩ h
  intro s a t ⟨hi,hj⟩ hs ha
  have hi' : t.Accounted := AmqpServer.accounted_step hi hs
  have hj' := AmqpServer.joining_keeps AmqpServer.served_keeps hi hj hs ha
  exact ⟨⟨hi',hj'⟩,hi'.not_stuck hj'⟩

theorem served_join_not_stuck : AmqpServer.system.Always (fun s => ¬ s.Stuck)
    [.insert 0,.start,.stop,.join 1,.joinTest 1,.loopReturned 0,.finish 0 (some 1),.joinTest 1] :=
  join_never_stuck _ (System.alongFrom_of_check (joinFinds AmqpServer.Served) (by decide))

/-- A server that is destroyed with a service that was never started. -/
def destroyedUnstarted : List ServerAct := [.insert 0,.destroy 1,.join 1]

theorem destructor_waits_for_nothing :
    ¬ ∀ as, AmqpServer.system.Always (fun s => ¬ s.Stuck) as := by
  intro h
  have hfree := System.AlongFrom.after destroyedUnstarted
    (h (destroyedUnstarted ++ [.joinTest 1])).2 rfl rfl
  exact hfree ⟨⟨1,List.mem_singleton.mpr rfl⟩,fun _ he => by cases he⟩

end MprMq.Server
