import MprMq.Server.ServerJoin
set_option autoImplicit false

/-! The life of an `AmqpServer`: how its state moves, which executors it runs, and which
services are registered. -/

namespace MprMq.Server
open MprMq.Base MprMq.Lib

/-- The transitions of the header. -/
inductive State.Next : State → State → Prop where
  | stay (s : State) : Next s s
  | start : Next .new .started
  | stop : Next .started .stopped
  | quit : Next .new .stopped

theorem State.Next.stopped (s : State) : s.Next .stopped := by
  cases s
  · exact .quit
  · exact .stop
  · exact .stay _

/-- How far an executor gets in a step. -/
inductive ExecutorPhase.Next : ExecutorPhase → ExecutorPhase → Prop where
  | stay (p : ExecutorPhase) : Next p p
  | run : Next .idle .running
  | leave : Next .running .returned
  | over : Next .returned .finished

/-- The executors registered at each `Start` made in state `NEW`, the services that
`InsertAsyncService` has registered, and those `RemoveAsyncService` was called for. -/
structure ServerRecord where
  starts : List (List ExecutorId)
  registered : List ServiceId
  removed : List ServiceId

def ServerRecord.see (r : ServerRecord) (s : AmqpServer) (a : ServerAct) (_ : AmqpServer) :
    ServerRecord :=
  match a with
  | .start =>
    if s.state = .new then
      { r with starts := r.starts ++ [s.serviceExecutorList.map ServiceExecutor.id] }
    else r
  | .insert service =>
    if (s.insertAsyncService service).2 = .ok then
      { r with registered := r.registered ++ [service] }
    else r
  | .remove service => { r with removed := r.removed ++ [service] }
  | _ => r

namespace AmqpServer

def services (s : AmqpServer) : List ServiceId :=
  s.serviceExecutorList.map ServiceExecutor.service

/-- Threads are made for the executors of one `Start` at most, one for each, these are the
executors that get to run, and a service is registered again only behind a removal. -/
structure RunOnce (s : AmqpServer) (r : ServerRecord) : Prop where
  one : r.starts.length ≤ 1
  ran : s.threadPool = r.starts.flatten
  once : s.threadPool.Nodup
  launched : ∀ e, s.executors e ≠ .idle ↔ e ∈ s.threadPool
  services : s.services.Nodup
  twice : ∀ service, r.registered.count service ≤ 1+r.removed.count service

structure Recorded (s : AmqpServer) (r : ServerRecord) : Prop where
  accounted : s.Accounted
  one : r.starts.length ≤ 1
  unstarted : s.state = .new → r.starts = []
  ran : s.threadPool = r.starts.flatten
  launched : ∀ e ∈ s.threadPool, s.executors e ≠ .idle
  services : s.services.Nodup
  registered : ∀ service,
    r.registered.count service ≤ s.services.count service+r.removed.count service

theorem Recorded.runOnce {s : AmqpServer} {r : ServerRecord} (hs : s.Recorded r) :
    s.RunOnce r where
  one := hs.one
  ran := hs.ran
  once := hs.accounted.poolDistinct
  launched := fun e => ⟨hs.accounted.launched e,hs.launched e⟩
  services := hs.services
  twice := fun service => by
    have hcount := List.nodup_iff_count_le_one.mp hs.services service
    have := hs.registered service
    omega

structure RunFrame (s t : AmqpServer) : Prop where
  state : s.state.Next t.state
  unopened : t.state = .new → s.state = .new
  list : t.serviceExecutorList = s.serviceExecutorList
  pool : t.threadPool = s.threadPool
  executors : ∀ e, (s.executors e).Next (t.executors e)
  idle : ∀ e, t.executors e = .idle ↔ s.executors e = .idle

theorem RunFrame.of_eq {s t : AmqpServer} (hstate : t.state = s.state ∨ t.state = .stopped)
    (hlist : t.serviceExecutorList = s.serviceExecutorList) (hpool : t.threadPool = s.threadPool)
    (hexec : t.executors = s.executors) : RunFrame s t where
  state := by
    obtain hstate | hstate := hstate <;> rw [hstate]
    · exact .stay _
    · exact .stopped _
  unopened := fun hnew => by
    obtain hstate | hstate := hstate
    · exact hstate ▸ hnew
    · rw [hstate] at hnew
      cases hnew
  list := hlist
  pool := hpool
  executors := fun e => by rw [hexec]; exact .stay _
  idle := fun e => by rw [hexec]

theorem RunFrame.of_executor {s t : AmqpServer} {e : ExecutorId} {p : ExecutorPhase}
    (hstate : t.state = s.state) (hlist : t.serviceExecutorList = s.serviceExecutorList)
    (hpool : t.threadPool = s.threadPool) (hexec : t.executors = Function.update s.executors e p)
    (hnext : (s.executors e).Next p) (hold : s.executors e ≠ .idle) (hnew : p ≠ .idle) :
    RunFrame s t where
  state := by rw [hstate]; exact .stay _
  unopened := fun hnew => hstate ▸ hnew
  list := hlist
  pool := hpool
  executors := fun e' => by
    rw [hexec]
    by_cases he : e' = e
    · subst he
      rwa [Function.update_self]
    · rw [Function.update_of_ne he]
      exact .stay _
  idle := fun e' => by
    rw [hexec]
    by_cases he : e' = e
    · subst he
      rw [Function.update_self]
      exact iff_of_false hnew hold
    · rw [Function.update_of_ne he]

theorem finish_state {s t : AmqpServer} {e : ExecutorId} {woken : Option ThreadId}
    (h : s.finish e woken = some t) : t.state = s.state := by
  simp only [finish] at h
  split at h
  · obtain ⟨m,-,rfl⟩ := Option.map_eq_some_iff.mp h
    rfl
  · obtain ⟨-,h⟩ := Option.ite_none_right_eq_some.mp h
    obtain rfl := Option.some.inj h
    rfl

theorem stop_frame (s : AmqpServer) : RunFrame s s.stop.1 := by
  unfold stop
  split
  · exact .of_eq (.inr rfl) rfl rfl rfl
  · exact .of_eq (.inr rfl) rfl rfl rfl
  · exact .of_eq (.inl rfl) rfl rfl rfl

theorem join_frame (s : AmqpServer) (thread : ThreadId) (destructor : Bool) :
    RunFrame s (s.join thread destructor) := by
  unfold join
  split
  · exact .of_eq (.inr rfl) rfl rfl rfl
  · exact .of_eq (.inl rfl) rfl rfl rfl
  · exact .of_eq (.inl rfl) rfl rfl rfl

theorem run_frame {s t : AmqpServer} {a : ServerAct} (hinsert : ∀ service, a ≠ .insert service)
    (hremove : ∀ service, a ≠ .remove service) (hstart : a ≠ .start) (h : s.step a = some t) :
    RunFrame s t := by
  cases step_to h with
  | insert service => exact absurd rfl (hinsert service)
  | remove service => exact absurd rfl (hremove service)
  | start => exact absurd rfl hstart
  | stop => exact s.stop_frame
  | join => exact s.join_frame _ false
  | joinLast => exact s.join_frame _ true
  | destroy =>
    obtain ⟨hstate,hopen,hlist,hpool,hexec,hidle⟩ := s.stop_frame
    exact ⟨hstate,hopen,hlist,hpool,hexec,hidle⟩
  | joinTest =>
    unfold joinTest
    split <;> exact .of_eq (.inl rfl) rfl rfl rfl
  | loopReturned he =>
    exact .of_executor (p := .returned) rfl rfl rfl rfl (by rw [he]; exact .leave) (by simp [he])
      (by simp)
  | finish he hfinish =>
    obtain ⟨hlist,hpool,-,hexec⟩ := finish_frame hfinish
    exact .of_executor (finish_state hfinish) hlist hpool hexec (by rw [he]; exact .over)
      (by simp [he]) (by simp)

theorem Recorded.keep {s t : AmqpServer} {r : ServerRecord} (hs : s.Recorded r)
    (ht : t.Accounted) (hf : RunFrame s t) : t.Recorded r where
  accounted := ht
  one := hs.one
  unstarted := fun hnew => hs.unstarted (hf.unopened hnew)
  ran := hf.pool.trans hs.ran
  launched := fun e he hidle => hs.launched e (hf.pool ▸ he) ((hf.idle e).mp hidle)
  services := by
    unfold AmqpServer.services
    rw [hf.list]
    exact hs.services
  registered := fun service => by
    unfold AmqpServer.services
    rw [hf.list]
    exact hs.registered service

theorem insert_cases (s : AmqpServer) (service : ServiceId) :
    (service ∈ s.services ∧ s.insertAsyncService service =
      (s,.error .alreadyExists "service already existed".toList)) ∨
    (service ∉ s.services ∧ (s.insertAsyncService service).2 = .ok ∧
      (s.insertAsyncService service).1.services = s.services ++ [service]) := by
  have hany : s.serviceExecutorList.any (fun e => e.service = service) = true ↔
      service ∈ s.services := by simp [services]
  unfold insertAsyncService
  split
  case isTrue hmem => exact .inl ⟨hany.mp hmem,rfl⟩
  case isFalse hout => exact .inr ⟨fun hmem => hout (hany.mpr hmem),rfl,by simp [services]⟩

theorem insert_run (s : AmqpServer) (service : ServiceId) :
    (s.insertAsyncService service).1.state = s.state ∧
      (s.insertAsyncService service).1.threadPool = s.threadPool ∧
      (s.insertAsyncService service).1.executors = s.executors := by
  unfold insertAsyncService
  split <;> exact ⟨rfl,rfl,rfl⟩

theorem Recorded.insert {s : AmqpServer} {r : ServerRecord} (hs : s.Recorded r)
    (service : ServiceId) : (s.insertAsyncService service).1.Recorded
      (r.see s (.insert service) (s.insertAsyncService service).1) := by
  have haccounted := hs.accounted.insert service
  obtain ⟨hmem,hsame⟩ | ⟨hout,hok,hservices⟩ := s.insert_cases service
  · have hsee : r.see s (.insert service) (s.insertAsyncService service).1 = r := by
      simp [ServerRecord.see,hsame]
    rw [hsee,hsame]
    exact hs
  · obtain ⟨hstate,hpool,hexec⟩ := s.insert_run service
    have hsee : r.see s (.insert service) (s.insertAsyncService service).1 =
        { r with registered := r.registered ++ [service] } := by
      simp [ServerRecord.see,hok]
    rw [hsee]
    refine ⟨haccounted,hs.one,fun hnew => hs.unstarted (hstate ▸ hnew),hpool.trans hs.ran,?_,?_,?_⟩
    · intro e he
      rw [hexec]
      exact hs.launched e (hpool ▸ he)
    · rw [hservices,List.nodup_append]
      refine ⟨hs.services,List.nodup_singleton _,?_⟩
      rintro x hx y hy rfl
      obtain rfl := List.mem_singleton.mp hy
      exact hout hx
    · intro x
      have := hs.registered x
      change (r.registered ++ [service]).count x ≤ _+r.removed.count x
      rw [hservices,List.count_append,List.count_append]
      omega

theorem removeLoop_services (service : ServiceId) (list : List ServiceExecutor) (n : Int) :
    (removeLoop service list n).1.map ServiceExecutor.service =
      (list.map ServiceExecutor.service).filter (fun x => x ≠ service) := by
  induction list generalizing n with
  | nil => rfl
  | cons it rest ih =>
    unfold removeLoop
    split
    case isTrue he => simp [ih,he]
    case isFalse hne => simp [ih,hne]

theorem Recorded.remove {s : AmqpServer} {r : ServerRecord} (hs : s.Recorded r)
    (ho : s.open = true) (service : ServiceId) : (s.removeAsyncService service).1.Recorded
      (r.see s (.remove service) (s.removeAsyncService service).1) := by
  have hservices : (s.removeAsyncService service).1.services =
      s.services.filter (fun x => x ≠ service) := removeLoop_services _ _ _
  refine ⟨hs.accounted.remove (open_mu ho) service,hs.one,hs.unstarted,hs.ran,hs.launched,?_,?_⟩
  · rw [hservices]
    exact hs.services.filter _
  · intro x
    have hold := hs.registered x
    have hcount := List.nodup_iff_count_le_one.mp hs.services x
    simp only [ServerRecord.see]
    rw [hservices,List.count_append]
    by_cases he : x = service
    · subst he
      simp only [List.count_singleton_self]
      omega
    · rw [List.count_filter (by simpa using he)]
      omega

theorem Recorded.start {s : AmqpServer} {r : ServerRecord} (hs : s.Recorded r) :
    s.start.1.Recorded (r.see s .start s.start.1) := by
  have haccounted := hs.accounted.start
  unfold AmqpServer.start at haccounted ⊢
  split
  case h_1 hnew =>
    rw [hnew] at haccounted
    have hstarts := hs.unstarted hnew
    have hpool := hs.ran
    rw [hstarts] at hpool
    have hsee : r.see s .start { s.launch with state := .started } =
        { r with starts := [s.serviceExecutorList.map ServiceExecutor.id] } := by
      simp [ServerRecord.see,hnew,hstarts]
    rw [hsee]
    refine ⟨haccounted,Nat.le_refl 1,(fun h => by cases h),?_,?_,hs.services,hs.registered⟩
    · simp [launch,hpool]
    · intro e he
      simp only [launch,hpool,List.flatten_nil,List.nil_append] at he ⊢
      rw [if_pos he]
      simp
  case h_2 hstarted =>
    have hsee : r.see s .start s = r := by simp [ServerRecord.see,hstarted]
    rw [hsee]
    exact hs
  case h_3 hstopped =>
    have hsee : r.see s .start s = r := by simp [ServerRecord.see,hstopped]
    rw [hsee]
    exact hs

theorem Recorded.step {s t : AmqpServer} {a : ServerAct} {r : ServerRecord} (hs : s.Recorded r)
    (h : s.step a = some t) : t.Recorded (r.see s a t) := by
  have ht : t.Accounted := accounted_step hs.accounted h
  cases a with
  | insert service =>
    cases step_to h with
    | insert => exact hs.insert service
  | remove service =>
    cases step_to h with
    | remove _ ho => exact hs.remove ho service
  | start =>
    cases step_to h with
    | start => exact hs.start
  | _ => exact hs.keep ht (run_frame (by simp) (by simp) (by simp) h)

theorem recorded : (system.watch ⟨[],[],[]⟩ ServerRecord.see).Inductive
    (fun p => p.1.Recorded p.2) where
  init := by
    refine ⟨accounted_init,Nat.zero_le 1,fun _ => rfl,rfl,(fun e he => by cases he),
      List.nodup_nil,fun service => Nat.zero_le _⟩
  step := fun s a t hs h => by
    obtain ⟨hstep,hsee⟩ := System.watch_step h
    rw [hsee]
    exact hs.step hstep

/-- The state takes the transitions of the header, and an executor is run from idle and by
`Start` in state `NEW` alone. -/
structure Onward (s : AmqpServer) (a : ServerAct) (t : AmqpServer) : Prop where
  state : s.state.Next t.state
  executors : ∀ e, (s.executors e).Next (t.executors e)
  launch : ∀ e, s.executors e = .idle → t.executors e ≠ .idle → a = .start ∧ s.state = .new

theorem Onward.of_eq {s t : AmqpServer} (a : ServerAct) (hstate : t.state = s.state)
    (hexec : t.executors = s.executors) : Onward s a t where
  state := by rw [hstate]; exact .stay _
  executors := fun e => by rw [hexec]; exact .stay _
  launch := fun e hs ht => absurd (hexec ▸ hs) ht

theorem onward_start {s : AmqpServer} (hs : s.Accounted) : Onward s .start s.start.1 := by
  unfold AmqpServer.start
  split
  case h_1 hnew =>
    have hpool := hs.unlaunched hnew
    have hidle : ∀ e, s.executors e = .idle := by
      intro e
      by_contra hne
      have := hs.launched e hne
      simp [hpool] at this
    refine ⟨by rw [hnew]; exact .start,fun e => ?_,fun _ _ _ => ⟨rfl,hnew⟩⟩
    simp only [launch]
    rw [hidle e]
    split
    · exact .run
    · exact .stay _
  case h_2 => exact .of_eq _ rfl rfl
  case h_3 => exact .of_eq _ rfl rfl

theorem onward_step {s t : AmqpServer} {a : ServerAct} (hs : s.Accounted)
    (h : s.step a = some t) : Onward s a t := by
  cases a with
  | insert service =>
    cases step_to h with
    | insert =>
      obtain ⟨hstate,-,hexec⟩ := s.insert_run service
      exact .of_eq _ hstate hexec
  | remove service =>
    cases step_to h with
    | remove => exact .of_eq _ rfl rfl
  | start =>
    cases step_to h with
    | start => exact onward_start hs
  | _ =>
    have hf := run_frame (by simp) (by simp) (by simp) h
    exact ⟨hf.state,hf.executors,fun e hold hnew => absurd ((hf.idle e).mpr hold) hnew⟩

end AmqpServer

/-- In every run the server's state and its executors go onward only, the one `Start` made in
state `NEW` runs the executors registered then, once each, and no service is registered
twice. -/
theorem server_runs_once (as : List ServerAct) :
    AmqpServer.system.Along AmqpServer.Onward as ∧
      (AmqpServer.system.watch ⟨[],[],[]⟩ ServerRecord.see).Always
        (fun p => p.1.RunOnce p.2) as :=
  ⟨AmqpServer.accounted.along (fun _ _ _ hs h => AmqpServer.onward_step hs h) as,
    AmqpServer.recorded.always (fun _ hs => hs.runOnce) as⟩

end MprMq.Server
