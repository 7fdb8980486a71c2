import MprMq.Threading.Stopper
set_option autoImplicit false

/-! What the state `STOPPED` says about the workers. -/

namespace MprMq.Threading
open MprMq.Lib

/-- A stopped manager has no worker, and no `Stop` or `Join` has thrown. -/
structure StoppedQuiet (s : ThreadManager) : Prop where
  count : s.state = .stopped → s.workerCount = 0
  registered : s.state = .stopped → ∀ w, (s.phase w).registered = false
  executing : s.state = .stopped → ∀ w task, s.phase w ≠ .executing task
  log : ∀ t e, .threw t .stop e ∉ s.log ∧ .threw t .join e ∉ s.log

/-- A caller of `StopImpl` that has not removed the workers sets the state when there are
none left. -/
def setsStoppedLast (s : ThreadManager) : Act → Bool
  | .stopLast u =>
    match s.call u with
    | .stopLast _ false => s.workerCount = 0
    | _ => true
  | _ => true

namespace ThreadManager

/-- The state becomes `STOPPED` in the last section of `StopImpl` only. -/
theorem state_stopped {s t : ThreadManager} {a : Act} (h : s.step a = some t)
    (ht : t.state = .stopped) : s.state = .stopped ∨ ∃ u, a = .stopLast u := by
  obtain hstate | ⟨-,hstate⟩ | ⟨hstate | hstate,-⟩ | ⟨-,hlast⟩ := state_step h
  · exact .inl (hstate ▸ ht)
  · cases hstate.symm.trans ht
  · cases hstate.symm.trans ht
  · cases hstate.symm.trans ht
  · exact .inr hlast

end ThreadManager

/-- The workers are all counted while the manager is open, and none is when it is stopped. -/
structure StopOrder (s : ThreadManager) : Prop where
  stopper : s.OneStopper
  count : s.state = .stopped → s.workerCount = 0

theorem StopOrder.quiet {s : ThreadManager} (hs : StopOrder s) : StoppedQuiet s where
  count := hs.count
  registered := fun h => hs.stopper.crewed.none_registered (hs.count h)
  executing := fun h w task hw => by
    have : (s.phase w).registered = false := hs.stopper.crewed.none_registered (hs.count h) w
    rw [hw] at this
    cases this
  log := fun t e => ⟨fun he => absurd (hs.stopper.log _ he) (by simp [Event.stopFailure]),
    fun he => absurd (hs.stopper.log _ he) (by simp [Event.stopFailure])⟩

/-- A step keeps the order exactly when it does not set `STOPPED` over workers. -/
theorem StopOrder.step {s t : ThreadManager} {a : Act} (hs : StopOrder s)
    (ha : a.resizes = false) (h : s.step a = some t) :
    (StoppedQuiet t ↔ setsStoppedLast s a = true) ∧
      (setsStoppedLast s a = true → StopOrder t) := by
  have hstopper := hs.stopper.step ha h
  have hkeep : setsStoppedLast s a = true → StopOrder t := by
    intro hc
    refine ⟨hstopper,fun ht => ?_⟩
    obtain hstate | ⟨u,rfl⟩ := ThreadManager.state_stopped h ht
    · exact ThreadManager.count_stays_zero hs.stopper.crewed h (hs.count hstate)
    · refine ThreadManager.count_stays_zero hs.stopper.crewed h ?_
      cases ThreadManager.step_to h with
      | @stopLast _ join doStop hu =>
        cases doStop with
        | false => simpa [setsStoppedLast,hu] using hc
        | true =>
          have hfact := hs.stopper.fact u
          rw [hu] at hfact
          exact hfact
  refine ⟨⟨fun hq => ?_,fun hc => (hkeep hc).quiet⟩,hkeep⟩
  by_contra hc
  cases ThreadManager.step_to h with
  | @stopLast u join doStop hu =>
    have hzero : s.workerCount = 0 := hq.count rfl
    cases doStop <;> simp [setsStoppedLast,hu,hzero] at hc
  | _ => exact hc rfl

/-- Workers that have all registered, then any calls of `Start`, `Stop` and `Join`, with
what else goes on but `AddWorker` and `RemoveWorker`: the manager is quiet whenever it is
`STOPPED` exactly when no caller that left the workers to another one sets the state
before they are gone. -/
theorem stopped_quiet_iff {pre post : List Act} {s : ThreadManager}
    (hpre : ∀ a ∈ pre, a.onStop = false) (hrun : ThreadManager.system.run pre = some s)
    (hall : ∀ w ∈ s.threads, (s.phase w).staying = true)
    (hpost : ∀ a ∈ post, a.resizes = false) :
    ThreadManager.system.AlongFrom (fun _ _ t => StoppedQuiet t) s post ↔
      ThreadManager.system.AlongFrom (fun s a _ => setsStoppedLast s a) s post := by
  have hgrown := ThreadManager.grown_of_run hpre hrun
  refine System.alongFrom_iff (I := StopOrder) ?_ ⟨hgrown.oneStopper hall,fun h => ?_⟩
  · intro s a t ha hs h
    exact hs.step (hpost a ha) h
  · obtain hstate | hstate := hgrown.state <;> rw [h] at hstate <;> cases hstate

def oneWorker : List Act :=
  [.setThreadFactory true,.start 0,.addWorker 0 [1],.startThread 0,.mapThread 0,.enter 1,
    .notifyManager 1 none,.addWorkerTest 0]

def loneStop : List Act :=
  [.add 2 5 0 0 0 0 true none,.take 1 0 none,.stop 3 false,.stopSection 3,.stopRead 3,
    .stopRemove 3 [],.finish 1,.take 1 0 none,.exit 1 none,.removeWorkerTest 3,.stopLast 3]

theorem lone_stop_quiet : ThreadManager.system.AlongFrom (fun _ _ t => StoppedQuiet t)
    ((ThreadManager.system.run oneWorker).getD .init) loneStop :=
  (stopped_quiet_iff (show ∀ a ∈ oneWorker, a.onStop = false by decide) rfl (by decide)
    (by decide)).mpr (System.alongFrom_of_check setsStoppedLast (by decide))

/-- Two threads call `Stop` while the worker executes a task; the second one finds the
first at work and goes on to the end. -/
def secondStop : List Act :=
  [.add 2 5 0 0 0 0 true none,.take 1 0 none,.stop 3 false,.stop 4 false,.stopSection 3,
    .stopSection 4]

theorem stopped_while_executing :
    ¬ ∀ pre post s, (∀ a ∈ pre, a.onStop = false) → ThreadManager.system.run pre = some s →
      (∀ w ∈ s.threads, (s.phase w).staying = true) → (∀ a ∈ post, a.resizes = false) →
      ThreadManager.system.AlongFrom (fun _ _ t => StoppedQuiet t) s post := by
  intro h
  have hquiet := System.AlongFrom.after secondStop
    (h oneWorker (secondStop ++ [.stopLast 4]) _ (by decide) rfl (by decide) (by decide)) rfl rfl
  exact absurd (hquiet.count rfl) (by decide)

end MprMq.Threading
