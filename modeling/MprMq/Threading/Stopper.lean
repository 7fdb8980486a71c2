import MprMq.Threading.Growth
set_option autoImplicit false

/-! The one call of `Stop` or `Join` that removes the workers. -/

namespace MprMq.Threading
open MprMq.Lib

def Act.resizes : Act → Bool
  | .addWorker .. | .removeWorker .. => true
  | _ => false

/-- A thread has taken it on itself to stop the manager and has not ended its call. -/
def CallPhase.claimed : CallPhase → Bool
  | .stopReading _ | .stopRemoving _ _ | .removing (some _) | .stopLast _ true => true
  | _ => false

theorem CallPhase.engaged_of_claimed {p : CallPhase} (h : p.claimed = true) :
    p.engaged = true := by
  cases p <;> simp_all [claimed,engaged]

namespace Core

/-- What the place of a thread in `StopImpl`, or in the `RemoveWorker` called there, says
about the workers. -/
def stopFact (c : Core) : CallPhase → Prop
  | .stopReading _ => c.Whole
  | .stopRemoving _ value => c.Whole ∧ value = c.workerCount
  | .removing (some _) => c.workerMaxCount = 0
  | .removing none => False
  | .stopLast _ true => c.workerCount = 0
  | _ => True

theorem stopFact_of_idle {c d : Core} {p : CallPhase} (h : c.stopFact p)
    (hp : p.claimed = false) : d.stopFact p := by
  cases p with
  | stopReading | stopRemoving => cases hp
  | removing stop => cases stop <;> first | exact h | cases hp
  | stopLast join doStop => cases doStop <;> first | exact trivial | cases hp
  | _ => trivial

end Core

namespace ThreadManager

/-- What the other steps leave of the workers. -/
structure WorkFrame (s t : ThreadManager) : Prop where
  crewed : t.core.Crewed
  whole : s.core.Whole → t.core.Whole ∧ t.workerCount = s.workerCount
  empty : s.workerCount = 0 → t.workerCount = 0
  limit : t.workerMaxCount = s.workerMaxCount

theorem work_frame {s t : ThreadManager} {a : Act} (hc : s.core.Crewed)
    (hstop : a.onStop = false) (hgrow : a.onGrow = false) (h : s.step a = some t) :
    WorkFrame s t := by
  have hcrew := crew_frame hstop hgrow h
  obtain ⟨-,hstep⟩ | ⟨w,woken,b,-,hw,ht⟩ := core_cases hc.sound h
  · have hcount : t.workerCount = s.workerCount := hc.step_count hstep
    refine ⟨hc.step hstep hcrew.threads,fun hwhole => ?_,fun hzero => ?_,hcrew.limit⟩
    · exact ⟨hwhole.step hc hstep hcrew.threads hcrew.limit,hcount⟩
    · exact hcount.trans hzero
  · refine ⟨ht ▸ hc.exited hw,fun hwhole => ?_,fun hzero => ?_,hcrew.limit⟩
    · exact absurd hw (hwhole.not_leaving hc.sound)
    · exact absurd hzero (Nat.ne_of_gt (hc.count_pos hw))

/-- Without new threads no one is counted again once no one is. -/
theorem count_stays_zero {s t : ThreadManager} {a : Act} (hc : s.core.Crewed)
    (h : s.step a = some t) (hzero : s.workerCount = 0) : t.workerCount = 0 := by
  obtain ⟨-,hstep⟩ | ⟨w,woken,b,-,hw,-⟩ := core_cases hc.sound h
  · exact (hc.step_count hstep).trans hzero
  · exact absurd hzero (Nat.ne_of_gt (hc.count_pos hw))

/-- At most one thread has taken the stop on itself, and only after the manager has left
`STARTED`. -/
structure OneStopper (s : ThreadManager) : Prop where
  crewed : s.core.Crewed
  known : s.state ≠ .starting
  fact : ∀ u, s.core.stopFact (s.call u)
  sole : ∀ u v, (s.call u).claimed = true → (s.call v).claimed = true → u = v
  unclaimed : s.state = .uninitialized ∨ s.state = .started →
    s.core.Whole ∧ ∀ u, (s.call u).claimed = false
  log : ∀ e ∈ s.log, e.stopFailure = false

/-- Where there is a stopper the manager is not open any more. -/
theorem OneStopper.closed {s : ThreadManager} (hs : s.OneStopper) {u : ThreadId}
    (hu : (s.call u).claimed = true) : ¬ (s.state = .uninitialized ∨ s.state = .started) := by
  intro hstate
  have := (hs.unclaimed hstate).2 u
  rw [hu] at this
  cases this

theorem Grown.oneStopper {s : ThreadManager} (hg : s.Grown)
    (hall : ∀ w ∈ s.threads, (s.phase w).staying = true) : s.OneStopper := by
  have hclaimed : ∀ u, (s.call u).claimed = false := by
    intro u
    by_contra hne
    have := hg.calls u
    rw [CallPhase.engaged_of_claimed (by simpa using hne)] at this
    cases this
  refine ⟨hg.core.crewed hall,fun h => ?_,fun u => ?_,fun u v hu => ?_,
    fun _ => ⟨⟨hg.core.limit,hall⟩,hclaimed⟩,
    fun e he => Event.stopFailure_of_ofStop (hg.log e he)⟩
  · obtain hu | hu := hg.state <;> rw [h] at hu <;> cases hu
  · have := hg.calls u
    cases hu : s.call u <;> simp_all [Core.stopFact,CallPhase.engaged]
  · rw [hclaimed u] at hu
    cases hu

theorem ControlFrame.claimed_iff {s t : ThreadManager} (hf : ControlFrame s t) (u : ThreadId) :
    (t.call u).claimed = true ↔ (s.call u).claimed = true := by
  constructor
  · intro h
    rwa [(hf.engaged u _ (CallPhase.engaged_of_claimed h)).mp rfl]
  · intro h
    rwa [(hf.engaged u _ (CallPhase.engaged_of_claimed h)).mpr rfl]

theorem WorkFrame.fact {s t : ThreadManager} (hw : WorkFrame s t) {p : CallPhase}
    (h : s.core.stopFact p) : t.core.stopFact p := by
  by_cases hp : p.claimed = true
  case neg => exact Core.stopFact_of_idle h (by simpa using hp)
  cases p with
  | stopReading join => exact (hw.whole h).1
  | stopRemoving join value =>
    obtain ⟨hwhole,hcount⟩ := hw.whole h.1
    exact ⟨hwhole,h.2.trans hcount.symm⟩
  | removing stop =>
    cases stop with
    | none => cases hp
    | some join => exact hw.limit.trans h
  | stopLast join doStop =>
    cases doStop with
    | false => cases hp
    | true => exact hw.empty h
  | _ => cases hp

theorem OneStopper.other {s t : ThreadManager} {a : Act} (hs : s.OneStopper)
    (hstop : a.onStop = false) (hgrow : a.onGrow = false) (h : s.step a = some t) :
    t.OneStopper := by
  have hf := control_frame hstop h
  have hw := work_frame hs.crewed hstop hgrow h
  refine ⟨hw.crewed,?_,fun u => ?_,fun u v hu hv => ?_,fun hstate => ?_,hf.no_failure hs.log⟩
  · obtain hstate | ⟨-,hstate⟩ := hf.state <;> rw [hstate]
    · exact hs.known
    · simp
  · by_cases hu : (t.call u).engaged = true
    · have := hs.fact u
      rw [(hf.engaged u _ hu).mp rfl] at this
      exact hw.fact this
    · cases hp : t.call u <;> simp_all [Core.stopFact,CallPhase.engaged]
  · exact hs.sole u v ((hf.claimed_iff u).mp hu) ((hf.claimed_iff v).mp hv)
  · have hold : s.state = .uninitialized ∨ s.state = .started := by
      obtain heq | ⟨heq,-⟩ := hf.state
      · exact heq ▸ hstate
      · exact .inl heq
    obtain ⟨hwhole,hnone⟩ := hs.unclaimed hold
    refine ⟨(hw.whole hwhole).1,fun u => ?_⟩
    rw [Bool.eq_false_iff,Ne,hf.claimed_iff u,hnone u]
    simp

theorem OneStopper.fact_goto {s : ThreadManager} (hs : s.OneStopper) {u : ThreadId}
    {p : CallPhase} (hp : s.core.stopFact p) :
    ∀ v, s.core.stopFact (Function.update s.call u p v) := by
  rw [Function.forall_update_iff s.call (fun _ q => s.core.stopFact q)]
  exact ⟨hp,fun v _ => hs.fact v⟩

theorem OneStopper.claimed_goto {s : ThreadManager} {u : ThreadId} {p : CallPhase}
    (hp : p.claimed = false) {v : ThreadId} (hv : (Function.update s.call u p v).claimed = true) :
    (s.call v).claimed = true := by
  by_cases he : v = u
  · rw [he,Function.update_self,hp] at hv
    cases hv
  · rwa [Function.update_of_ne he] at hv

/-- The first caller that finds the manager open takes on the stop; the others go straight
to the end. -/
theorem OneStopper.stopSection {s : ThreadManager} (hs : s.OneStopper) (u : ThreadId)
    (join : Bool) : (s.stopSection u join).OneStopper := by
  unfold ThreadManager.stopSection
  split
  case isTrue hopen =>
    have hstate : s.state = .uninitialized ∨ s.state = .started := by
      have := hs.known
      cases hst : s.state <;> simp_all
    obtain ⟨hwhole,hnone⟩ := hs.unclaimed hstate
    have hsole : ∀ v, (Function.update s.call u (.stopReading join) v).claimed = true →
        v = u := by
      intro v hv
      by_contra hne
      rw [Function.update_of_ne hne,hnone v] at hv
      cases hv
    refine ⟨hs.crewed,?_,hs.fact_goto hwhole,fun v w hv hw => (hsole v hv).trans (hsole w hw).symm,
      fun h => ?_,hs.log⟩
    · cases join <;> simp [goto]
    · cases join <;> simp [goto] at h
  case isFalse hclosed =>
    refine ⟨hs.crewed,hs.known,hs.fact_goto trivial,fun v w hv hw => ?_,fun h => ?_,hs.log⟩
    · exact hs.sole v w (claimed_goto rfl hv) (claimed_goto rfl hw)
    · refine absurd ?_ hclosed
      have h : s.state = .uninitialized ∨ s.state = .started := h
      obtain h | h := h <;> simp [h]

theorem OneStopper.sole_goto {s : ThreadManager} (hs : s.OneStopper) {u : ThreadId}
    (hu : (s.call u).claimed = true) {p : CallPhase} {v w : ThreadId}
    (hv : (Function.update s.call u p v).claimed = true)
    (hw : (Function.update s.call u p w).claimed = true) : v = w := by
  have hsole : ∀ v, (Function.update s.call u p v).claimed = true → v = u := by
    intro v hv
    by_contra hne
    rw [Function.update_of_ne hne] at hv
    exact hne (hs.sole v u hv hu)
  exact (hsole v hv).trans (hsole w hw).symm

theorem OneStopper.stopRead {s : ThreadManager} (hs : s.OneStopper) {u : ThreadId} {join : Bool}
    (hu : s.call u = .stopReading join) :
    (s.goto u (.stopRemoving join s.workerCount)).OneStopper := by
  have hclaimed : (s.call u).claimed = true := by rw [hu]; rfl
  have hwhole : s.core.Whole := by
    have := hs.fact u
    rwa [hu] at this
  exact ⟨hs.crewed,hs.known,hs.fact_goto ⟨hwhole,rfl⟩,fun v w hv hw => hs.sole_goto hclaimed hv hw,
    fun h => absurd h (hs.closed hclaimed),hs.log⟩

/-- The workers the stopper has read are all there still, so it does not throw. -/
theorem OneStopper.stopRemove {s t : ThreadManager} (hs : s.OneStopper) {u : ThreadId}
    {join : Bool} {value : Nat} {woken : List (Option ThreadId)}
    (hu : s.call u = .stopRemoving join value)
    (h : s.removeWorker u value (some join) woken = some t) :
    ∃ m, t = { s with workerMaxCount := 0, monitor := m }.goto u (.removing (some join)) ∧
      t.OneStopper := by
  have hclaimed : (s.call u).claimed = true := by rw [hu]; rfl
  have hfact : s.core.Whole ∧ value = s.workerCount := by
    have := hs.fact u
    rwa [hu] at this
  have hmax : s.workerMaxCount = value :=
    hfact.1.limit.trans ((hfact.1.counted hs.crewed.accurate).symm.trans hfact.2.symm)
  have hcrewed : t.core.Crewed :=
    hs.crewed.step (removeWorker_core hs.crewed.sound h) (by
      obtain ⟨-,rfl⟩ | ⟨-,m,-,rfl⟩ := removeWorker_cases h <;> rfl)
  obtain ⟨hlt,-⟩ | ⟨-,m,-,rfl⟩ := removeWorker_cases h
  · exact absurd hlt (by omega)
  · have hzero : s.workerMaxCount-value = 0 := by omega
    refine ⟨m,by rw [hzero],hcrewed,hs.known,fun v => ?_,
      fun v w hv hw => hs.sole_goto hclaimed hv hw,fun h => absurd h (hs.closed hclaimed),hs.log⟩
    by_cases he : v = u
    · subst he
      simp only [goto,Function.update_self]
      exact hzero
    · simp only [goto,Function.update_of_ne he]
      refine Core.stopFact_of_idle (hs.fact v) ?_
      by_contra hv
      exact he (hs.sole v u (by simpa using hv) hclaimed)

/-- The stopper waits on until no worker is counted. -/
theorem OneStopper.removeWorkerTest {s : ThreadManager} (hs : s.OneStopper) {u : ThreadId}
    {stop : Option Bool} (hu : s.call u = .removing stop) :
    (s.removeWorkerTest u stop).OneStopper := by
  have hfact := hs.fact u
  rw [hu] at hfact
  cases stop with
  | none => exact hfact.elim
  | some join =>
    have hclaimed : (s.call u).claimed = true := by rw [hu]; rfl
    have hmax : s.workerMaxCount = 0 := hfact
    unfold ThreadManager.removeWorkerTest
    split
    case isTrue => exact ⟨hs.crewed,hs.known,hs.fact,hs.sole,hs.unclaimed,hs.log⟩
    case isFalse hcount =>
      have hzero : s.workerCount = 0 := (not_not.mp hcount).trans hmax
      exact ⟨hs.crewed,hs.known,hs.fact_goto (p := .stopLast join true) hzero,
        fun v w hv hw => hs.sole_goto hclaimed hv hw,
        fun h => absurd h (hs.closed hclaimed),hs.log⟩

theorem OneStopper.stopLast {s : ThreadManager} (hs : s.OneStopper) (u : ThreadId)
    (join : Bool) : (s.stopLast u join).OneStopper := by
  refine ⟨hs.crewed,by simp [ThreadManager.stopLast,ret,goto,record],
    hs.fact_goto (p := .none) trivial,
    fun v w hv hw => hs.sole v w (claimed_goto rfl hv) (claimed_goto rfl hw),fun h => ?_,?_⟩
  · simp [ThreadManager.stopLast,ret,goto,record] at h
  · intro e he
    obtain he | he := List.mem_append.mp he
    · exact hs.log e he
    · obtain rfl := List.mem_singleton.mp he
      rfl

/-- Whatever happens but `AddWorker` and `RemoveWorker`, there is one stopper. -/
theorem OneStopper.step {s t : ThreadManager} {a : Act} (hs : s.OneStopper)
    (ha : a.resizes = false) (h : s.step a = some t) : t.OneStopper := by
  by_cases hstop : a.onStop = false
  · refine hs.other hstop ?_ h
    cases a <;> first | rfl | cases ha
  cases step_to h with
  | removeWorker => cases ha
  | removeWorkerTest hu => exact hs.removeWorkerTest hu
  | stopSection => exact hs.stopSection _ _
  | stopRead hu => exact hs.stopRead hu
  | stopRemove hu hremove =>
    obtain ⟨m,-,ht⟩ := hs.stopRemove hu hremove
    exact ht
  | stopLast => exact hs.stopLast _ _
  | _ => exact absurd rfl hstop

end ThreadManager
end MprMq.Threading
